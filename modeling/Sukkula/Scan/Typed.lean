import Sukkula.Scan.Read

/-! # What a typed code is taken for

Text without a colon is no URI and no link, so that only its shape counts. croc's
words are croc's however they are spelled; a number and words are a wormhole code,
but for croc 10's four digits; and what is given as a croc code can be received
with, as it is.
-/

namespace Sukkula.Scan

open Str LocalSend
open Croc (Hashes isWord isWord_iff)

variable {R : Readers} {text t c : Str} {d : Char}

section Plain

theorem not_isDigit_of_isLower (h : d.isLower) : ¬ d.isDigit := by
  rw [Croc.isLower_iff_toNat] at h
  rw [Char.isDigit_iff_toNat]
  have h9 : '9'.toNat = 57 := rfl
  omega

theorem isPlain_iff_toNat :
    isPlain d ↔ d.toNat = 45 ∨ (48 ≤ d.toNat ∧ d.toNat ≤ 57) ∨ (97 ≤ d.toNat ∧ d.toNat ≤ 122) := by
  have hhyphen : d = '-' ↔ d.toNat = 45 := ⟨fun h => by rw [h]; rfl, fun h => Char.toNat_inj.mp h⟩
  simp only [isPlain, Bool.or_eq_true, decide_eq_true_eq, Croc.isLower_iff_toNat,
    Char.isDigit_iff_toNat, hhyphen]
  have h0 : '0'.toNat = 48 := rfl
  have h9 : '9'.toNat = 57 := rfl
  omega

theorem graphic_of_isPlain_toLower (h : isPlain d.toLower) : Config.isAsciiGraphic d ∧ d ≠ ':' := by
  rw [isPlain_iff_toNat] at h
  have hcolon : d = ':' → d.toNat = 58 := fun h => by rw [h]; rfl
  simp only [Config.isAsciiGraphic, Bool.and_eq_true, decide_eq_true_eq]
  rcases toLower_cases d with ⟨hlo, hhi, hd⟩ | ⟨-, hd⟩
  · rw [hd] at h
    refine ⟨by omega, fun heq => ?_⟩
    have := hcolon heq
    omega
  · rw [hd] at h
    refine ⟨by omega, fun heq => ?_⟩
    have := hcolon heq
    omega

theorem toLower_of_isPlain (h : isPlain d) : d.toLower = d := by
  rw [isPlain_iff_toNat] at h
  exact toLower_eq_self (by omega)

theorem toAsciiLowercase_of_plain (h : ∀ d ∈ text, isPlain d) : text.toAsciiLowercase = text := by
  have hid : text.map Char.toLower = text.map id :=
    List.map_congr_left fun d hd => toLower_of_isPlain (h d hd)
  rw [toAsciiLowercase, hid, List.map_id]

end Plain

section Words

theorem crocWords_iff : crocWords text ↔ ∃ pin words, text.splitOn '-' = pin :: words ∧
    (∀ w ∈ words, isWord w) ∧ ((len pin = 4 ∧ pin.all Char.isDigit ∧ 3 ≤ words.length) ∨
      (isWord pin ∧ 2 ≤ words.length)) := by
  obtain ⟨pin, words, hparts⟩ := List.exists_cons_of_ne_nil (List.splitOn_ne_nil '-' text)
  have hword : isWord pin → ¬ pin.all Char.isDigit := by
    intro hpin hdigits
    obtain ⟨hne, hlower⟩ := isWord_iff.mp hpin
    obtain ⟨d, hd⟩ := List.exists_mem_of_ne_nil _ hne
    exact not_isDigit_of_isLower (hlower d hd) (List.all_eq_true.mp hdigits d hd)
  simp only [crocWords, hparts, List.cons.injEq]
  constructor
  · intro h
    refine ⟨pin, words, ⟨rfl, rfl⟩, ?_⟩
    split_ifs at h with hpin
    · simp only [Bool.and_eq_true, decide_eq_true_eq, List.all_eq_true] at h
      exact ⟨h.2, .inl ⟨hpin.1, hpin.2, h.1⟩⟩
    · simp only [Bool.and_eq_true, decide_eq_true_eq, List.all_eq_true, List.forall_mem_cons,
        List.length_cons] at h
      exact ⟨h.2.2, .inr ⟨h.2.1, by omega⟩⟩
  · rintro ⟨pin', words', ⟨rfl, rfl⟩, hall, ⟨hlen, hdigits, hthree⟩ | ⟨hpin, htwo⟩⟩
    · rw [if_pos ⟨hlen, hdigits⟩, Bool.and_eq_true, decide_eq_true_eq, List.all_eq_true]
      exact ⟨hthree, hall⟩
    · rw [if_neg fun h => hword hpin h.2, Bool.and_eq_true, decide_eq_true_eq, List.all_eq_true,
        List.forall_mem_cons, List.length_cons]
      exact ⟨by omega, hpin, hall⟩

def PlainPart (p : Str) : Prop := p ≠ [] ∧ ∀ d ∈ p, isPlain d

theorem isPlain_of_parts (h : ∀ p ∈ text.splitOn '-', PlainPart p) (hd : d ∈ text) : isPlain d := by
  rw [← join_splitOn '-' text] at hd
  rcases mem_join hd with rfl | ⟨p, hp, hmem⟩
  · rfl
  · exact (h p hp).2 d hmem

theorem plainPart_of_isWord {p : Str} (h : isWord p) : PlainPart p := by
  obtain ⟨hne, hlower⟩ := isWord_iff.mp h
  refine ⟨hne, fun d hd => ?_⟩
  rw [isPlain, hlower d hd]
  rfl

theorem plainPart_of_digits {p : Str} (hne : p ≠ []) (h : p.all Char.isDigit) : PlainPart p := by
  refine ⟨hne, fun d hd => ?_⟩
  rw [isPlain, List.all_eq_true.mp h d hd, Bool.or_true, Bool.true_or]

theorem plainPart_of_crocWords (h : crocWords text) : ∀ p ∈ text.splitOn '-', PlainPart p := by
  obtain ⟨pin, words, hparts, hall, hpin⟩ := crocWords_iff.mp h
  rw [hparts, List.forall_mem_cons]
  refine ⟨?_, fun w hw => plainPart_of_isWord (hall w hw)⟩
  rcases hpin with ⟨hfour, hdigits, -⟩ | ⟨hpin, -⟩
  · exact plainPart_of_digits (by rintro rfl; cases hfour) hdigits
  · exact plainPart_of_isWord hpin

theorem isPlain_of_crocWords (h : crocWords text) (hd : d ∈ text) : isPlain d :=
  isPlain_of_parts (plainPart_of_crocWords h) hd

theorem plain_facts (h : ∀ d ∈ text, isPlain d) :
    (∀ d ∈ text, Config.isAsciiGraphic d) ∧ ':' ∉ text := by
  refine ⟨fun d hd => ?_, fun hcolon => ?_⟩
  · have hlower := h d hd
    rw [← toLower_of_isPlain hlower] at hlower
    exact (graphic_of_isPlain_toLower hlower).1
  · exact absurd (h ':' hcolon) (by decide)

end Words

section Colon

theorem colon_mem (h : ':' ∈ text.toAsciiLowercase) : ':' ∈ text := by
  obtain ⟨d, hd, hlower⟩ := List.mem_map.mp h
  rwa [← hlower, toLower_eq_of_lt (by rw [hlower]; decide)]

theorem wormholeFromQr_eq_none (h : ':' ∉ text) : wormholeFromQr R text = none := by
  rw [wormholeFromQr, Option.bind_eq_bind, Option.bind_eq_none_iff]
  intro head hhead
  refine if_neg fun heq => h ?_
  have hcolon : ':' ∈ head.toAsciiLowercase := by
    rw [heq]
    decide
  exact mem_of_getTo hhead (colon_mem hcolon)

theorem crocScanned_of_crocWords (h : crocWords text) :
    crocScanned R (some text) = if 6 ≤ len text ∧ len text ≤ 128 then .croc text else .other := by
  have hgraphic := (plain_facts fun d hd => isPlain_of_crocWords h hd).1
  rw [crocScanned, Option.bind_some]
  split_ifs with hlen
  · rw [Croc.parse_of_graphic hlen hgraphic]
    rfl
  · have hjoin : text.hyphenated = text :=
      hyphenated_of_forall fun d hd => Croc.not_isWhitespace_of_isAsciiGraphic (hgraphic d hd)
    rw [Croc.parse, hjoin, if_neg fun hok => hlen ⟨hok.1, hok.2.1⟩]
    rfl

/-- The url crate refuses text without a scheme. -/
def NeedsScheme (url : Str → Option Config.Url) : Prop := ∀ text, ':' ∉ text → url text = none

variable (hurl : NeedsScheme R.url)
include hurl

theorem read_of_no_colon (h : ':' ∉ text.trim) (hlen : len text.trim ≤ maxTextBytes) :
    read R text = if crocWords text.trim then crocScanned R (some text.trim) else .other := by
  rw [read, if_neg (by omega), wormholeFromQr_eq_none h, Option.none_or, crocFromQr, hurl _ h]
  dsimp only
  split_ifs <;> rfl

theorem typed_of_no_colon (h : ':' ∉ text.trim) (hne : text.trim ≠ [])
    (hlen : len text.trim ≤ maxTextBytes) : typed R text =
      if crocWords text.trim ∧ 6 ≤ len text.trim ∧ len text.trim ≤ 128 then some (.croc text.trim)
      else byShape text.trim.hyphenated := by
  have hread : read R text.trim =
      if crocWords text.trim ∧ 6 ≤ len text.trim ∧ len text.trim ≤ 128 then .croc text.trim
      else .other := by
    rw [read_of_no_colon hurl (by rwa [trim_trim]) (by rwa [trim_trim]), trim_trim]
    by_cases hwords : crocWords text.trim
    · rw [if_pos hwords, crocScanned_of_crocWords hwords]
      simp only [hwords, true_and]
    · rw [if_neg hwords, if_neg fun hall => hwords hall.1]
  have hlink : ¬ ("://".toList <:+: text.trim.toAsciiLowercase ∨
      uriScheme <+: text.trim.toAsciiLowercase) := by
    rintro (hinside | hstart)
    · exact h (colon_mem (hinside.subset (by decide)))
    · exact h (colon_mem (hstart.subset (by decide)))
  rw [typed, if_neg (not_or.mpr ⟨hne, by omega⟩)]
  dsimp only
  rw [hread]
  by_cases hcroc : crocWords text.trim ∧ 6 ≤ len text.trim ∧ len text.trim ≤ 128
  · simp only [if_pos hcroc]
    rfl
  · simp only [if_neg hcroc]
    exact if_neg hlink

end Colon

section Received

variable {code : Str}

def Receivable (R : Readers) (code : Str) : Prop :=
  ∃ c, Croc.parse R.hashes code = .ok c ∧ c.typed = code

theorem receivable_of_graphic (hlen : 6 ≤ len code ∧ len code ≤ 128)
    (hall : ∀ d ∈ code, Config.isAsciiGraphic d) : Receivable R code :=
  ⟨_, Croc.parse_of_graphic hlen hall, rfl⟩

theorem receivable_ne_croc : receivable R text ≠ some (.croc code) := by
  intro h
  rw [receivable] at h
  obtain ⟨uri, -, h⟩ := Option.bind_eq_some_iff.mp h
  split_ifs at h
  obtain ⟨wormhole, -, h⟩ := Option.bind_eq_some_iff.mp h
  split at h
  · cases h
  · obtain ⟨theirs, -, h⟩ := Option.bind_eq_some_iff.mp h
    obtain ⟨default, -, h⟩ := Option.bind_eq_some_iff.mp h
    cases h

theorem wormholeFromQr_ne_croc : wormholeFromQr R text ≠ some (.croc code) := by
  intro h
  obtain ⟨head, -, h⟩ := Option.bind_eq_some_iff.mp h
  split_ifs at h
  cases hfound : receivable R text with
  | none =>
    rw [hfound] at h
    cases h
  | some found =>
    rw [hfound] at h
    cases h
    exact receivable_ne_croc hfound

theorem receivable_of_crocScanned {given : Option Str} (h : crocScanned R given = .croc code) :
    Receivable R code := by
  rw [crocScanned] at h
  split at h
  · next c hc =>
    cases h
    obtain ⟨raw, -, hraw⟩ := Option.bind_eq_some_iff.mp hc
    cases hparse : Croc.parse R.hashes raw with
    | error e =>
      rw [hparse] at hraw
      cases hraw
    | ok c' =>
      rw [hparse] at hraw
      cases hraw
      exact ⟨c, Croc.parse_parse hparse, rfl⟩
  · cases h

theorem receivable_of_crocFromQr (h : crocFromQr R text = some (.croc code)) :
    Receivable R code := by
  rw [crocFromQr] at h
  split at h
  · split_ifs at h
    exact receivable_of_crocScanned (Option.some.inj h)
  · split_ifs at h
    exact receivable_of_crocScanned (Option.some.inj h)

theorem receivable_of_read (h : read R text = .croc code) : Receivable R code := by
  rw [read] at h
  split_ifs at h
  cases hwormhole : wormholeFromQr R text.trim with
  | some found =>
    rw [hwormhole, Option.some_or, Option.getD_some] at h
    rw [h] at hwormhole
    exact absurd hwormhole wormholeFromQr_ne_croc
  | none =>
    rw [hwormhole, Option.none_or] at h
    cases hcroc : crocFromQr R text.trim with
    | none =>
      rw [hcroc] at h
      cases h
    | some found =>
      rw [hcroc, Option.getD_some] at h
      rw [h] at hcroc
      exact receivable_of_crocFromQr hcroc

theorem receivable_of_byShape (h : byShape text = some (.croc code)) : Receivable R code := by
  rw [byShape] at h
  split_ifs at h with hcroc hnumbered hplain hlast
  · cases h
    refine receivable_of_graphic ?_ (plain_facts fun d hd => isPlain_of_crocWords hcroc.2 hd).1
    rw [len_toAsciiLowercase]
    exact hcroc.1
  · cases h
  · cases h
    exact receivable_of_graphic hlast.1 (List.all_eq_true.mp hlast.2)

theorem receivable_of_typed (h : typed R text = some (.croc code)) : Receivable R code := by
  rw [typed] at h
  dsimp only at h
  split_ifs at h
  · exact receivable_of_read (Option.some.inj h)
  · exact receivable_of_byShape h

end Received

section Numbers

open Wormhole (Numbered)

variable {code nameplate password : Str}

/-- A number of four digits, and three or more words all of letters. -/
def Croc10s (code : Str) : Prop :=
  ∃ nameplate words, code.splitOn '-' = nameplate :: words ∧ nameplate.length = 4 ∧
    3 ≤ words.length ∧ ∀ w ∈ words, ∀ d ∈ w, d.isLower

theorem nameplate_facts (h : Wormhole.nameplateOk nameplate) :
    nameplate ≠ [] ∧ nameplate.all Char.isDigit ∧ '-' ∉ nameplate := by
  simp only [Wormhole.nameplateOk, Bool.and_eq_true, decide_eq_true_eq] at h
  exact ⟨h.1.1.1, h.1.2, fun hm => absurd (List.all_eq_true.mp h.1.2 '-' hm) (by decide)⟩

theorem word_facts (h : Wormhole.wordsOk password) :
    ∀ w ∈ password.splitOn '-', w ≠ [] ∧ ∀ d ∈ w, d.isLower ∨ d.isDigit := by
  simp only [Wormhole.wordsOk, Bool.and_eq_true, decide_eq_true_eq, List.all_eq_true] at h
  intro w hw
  have hok := h.2 w hw
  simp only [Wormhole.wordOk, Bool.and_eq_true, Bool.or_eq_true, decide_eq_true_eq,
    List.all_eq_true] at hok
  exact ⟨hok.1.1, hok.2⟩

theorem splitOn_of_numbered (h : Numbered code nameplate password) :
    code.splitOn '-' = nameplate :: password.splitOn '-' := by
  rw [h.eq, List.splitOn_append_cons_self_of_not_mem (nameplate_facts h.nameplate).2.2]

theorem isPlain_of_numbered (h : Numbered code nameplate password) (hd : d ∈ code) : isPlain d := by
  refine isPlain_of_parts ?_ hd
  obtain ⟨hne, hdigits, -⟩ := nameplate_facts h.nameplate
  rw [splitOn_of_numbered h, List.forall_mem_cons]
  refine ⟨plainPart_of_digits hne hdigits,
    fun w hw => ⟨(word_facts h.words w hw).1, fun d hd => ?_⟩⟩
  have hd := (word_facts h.words w hw).2 d hd
  rw [isPlain, Bool.or_eq_true, Bool.or_eq_true]
  exact .inl hd

theorem crocWords_iff_croc10s (h : Numbered code nameplate password) :
    crocWords code ↔ Croc10s code := by
  obtain ⟨hne, hdigits, -⟩ := nameplate_facts h.nameplate
  have hlen : len nameplate = nameplate.length := Croc.len_eq_length hdigits
  rw [crocWords_iff, Croc10s, splitOn_of_numbered h]
  constructor
  · rintro ⟨pin, words, heq, hall, ⟨hpin, -, hthree⟩ | ⟨hpin, -⟩⟩
    · obtain ⟨rfl, rfl⟩ := List.cons.inj heq
      exact ⟨_, _, rfl, by rw [← hlen, hpin], hthree, fun w hw => (isWord_iff.mp (hall w hw)).2⟩
    · obtain ⟨rfl, rfl⟩ := List.cons.inj heq
      obtain ⟨d, hd⟩ := List.exists_mem_of_ne_nil _ hne
      exact absurd (List.all_eq_true.mp hdigits d hd)
        (not_isDigit_of_isLower ((isWord_iff.mp hpin).2 d hd))
  · rintro ⟨pin, words, heq, hpin, hthree, hall⟩
    obtain ⟨rfl, rfl⟩ := List.cons.inj heq
    refine ⟨_, _, rfl, fun w hw => ?_, .inl ⟨by rw [hlen, hpin], hdigits, hthree⟩⟩
    exact isWord_iff.mpr ⟨(word_facts h.words w hw).1, hall w hw⟩

theorem six_le_len (h : Numbered code nameplate password) (hten : Croc10s code) : 6 ≤ len code := by
  obtain ⟨pin, words, hparts, hfour, hthree, -⟩ := hten
  obtain ⟨rfl, rfl⟩ := List.cons.inj (hparts.symm.trans (splitOn_of_numbered h))
  have hpin : len pin = pin.length := Croc.len_eq_length (nameplate_facts h.nameplate).2.1
  have hsum := two_mul_length_le fun w hw => (word_facts h.words w hw).1
  have hjoin := len_join (c := '-') rfl (List.splitOn_ne_nil '-' code)
  rw [join_splitOn, hparts, List.map_cons, List.sum_cons] at hjoin
  omega

theorem numbered_of_lower (h : Numbered text.toAsciiLowercase nameplate password) :
    numbered text := by
  obtain ⟨hne, hdigits, hnot⟩ := nameplate_facts h.nameplate
  obtain ⟨a, rest, rfl, ha, hrest⟩ := List.map_eq_append_iff.mp h.eq
  obtain ⟨x, b, rfl, hx, hb⟩ := List.map_eq_cons_iff.mp hrest
  have hhyphen : x = '-' := by
    rw [← hx, toLower_eq_of_lt (by rw [hx]; decide)]
  have ha' : a = nameplate := by
    have hid : a.map Char.toLower = a.map id := List.map_congr_left fun y hy => by
      have hdigit := List.all_eq_true.mp hdigits y.toLower (ha ▸ List.mem_map_of_mem hy)
      have hle := (Char.isDigit_iff_toNat.mp hdigit).2
      exact toLower_eq_of_lt (Nat.lt_of_le_of_lt hle (by decide))
    rw [← ha, hid, List.map_id]
  have hb' : b ≠ [] := by
    rintro rfl
    rw [List.map_nil] at hb
    rw [← hb] at h
    exact absurd h.words (by decide)
  subst hhyphen ha'
  rw [numbered, splitOnce_append hnot]
  simp [hne, hdigits, hb']

theorem typed_of_grammar (hurl : NeedsScheme R.url) (h : Wormhole.grammar text = .ok code) :
    code = text.trim.toAsciiLowercase ∧ (Croc10s code → typed R text = some (.croc code)) ∧
      (¬ Croc10s code → typed R text = some (.wormhole code none)) := by
  obtain ⟨hcode, nameplate, password, hnum⟩ := Wormhole.grammar_eq_ok h
  generalize htext : text.trim = t at hcode
  have hlower : ∀ d ∈ t, isPlain d.toLower := by
    intro d hd
    refine isPlain_of_numbered hnum ?_
    rw [hcode]
    exact List.mem_map_of_mem hd
  have hlen : len t = len code := by rw [hcode, len_toAsciiLowercase]
  have hmax : len code ≤ 128 := hnum.len
  have hne : t ≠ [] := by
    rintro rfl
    rw [hcode] at hnum
    exact absurd hnum.eq (by simp [toAsciiLowercase])
  have hcolon : ':' ∉ t := fun hm => (graphic_of_isPlain_toLower (hlower ':' hm)).2 rfl
  have hjoin : hyphenated t = t := hyphenated_of_forall fun d hd =>
    Croc.not_isWhitespace_of_isAsciiGraphic (graphic_of_isPlain_toLower (hlower d hd)).1
  have hsame : crocWords t → t = code := fun hwords => by
    rw [hcode, toAsciiLowercase_of_plain fun d hd => isPlain_of_crocWords hwords hd]
  have htyped := typed_of_no_colon hurl (htext ▸ hcolon) (htext ▸ hne)
    (by rw [htext, hlen]; exact hmax.trans (by decide))
  rw [htext, hjoin] at htyped
  refine ⟨hcode, fun hten => ?_, fun hten => ?_⟩
  · have hwords := (crocWords_iff_croc10s hnum).mpr hten
    rw [htyped]
    split_ifs with hcroc
    · rw [hsame hcroc.1]
    · rw [byShape, ← hcode, if_pos ⟨hlen ▸ ⟨six_le_len hnum hten, hmax⟩, hwords⟩]
  · have hwords : ¬ crocWords code := mt (crocWords_iff_croc10s hnum).mp hten
    have hnumbered : numbered t := numbered_of_lower (hcode ▸ hnum)
    have hnot : ¬ (crocWords t ∧ 6 ≤ len t ∧ len t ≤ 128) := by
      rintro ⟨hcroc, -⟩
      rw [hsame hcroc] at hcroc
      exact hwords hcroc
    rw [htyped, if_neg hnot, byShape, ← hcode,
      if_neg fun hall => hwords hall.2, if_pos hnumbered,
      if_pos (List.all_eq_true.mpr fun d hd => isPlain_of_numbered hnum hd)]

end Numbers

section Spellings

/-- The text spelled another way: letters of either case, and white space for hyphens. -/
inductive Respelled : Str → Str → Prop
  | nil : Respelled [] []
  | case {x y : Char} {s t : Str} : y.toLower = x.toLower → Respelled s t → Respelled (x :: s)
  (y :: t)
  | gap {run s t : Str} : run ≠ [] → (∀ y ∈ run, isWhitespace y) → Respelled s t →
      Respelled ('-' :: s) (run ++ t)

inductive Spelled : List Str → Str → Prop
  | last {p q : Str} : q.toAsciiLowercase = p.toAsciiLowercase → Spelled [p] q
  | hyphen {p q t : Str} {ps : List Str} : q.toAsciiLowercase = p.toAsciiLowercase → Spelled ps t →
      Spelled (p :: ps) (q ++ '-' :: t)
  | gap {p q run t : Str} {ps : List Str} : q.toAsciiLowercase = p.toAsciiLowercase → run ≠ [] →
      (∀ y ∈ run, isWhitespace y) → Spelled ps t → Spelled (p :: ps) (q ++ run ++ t)

theorem Spelled.cons {x y : Char} {p : Str} {ps : List Str} (hxy : y.toLower = x.toLower)
    (h : Spelled (p :: ps) t) : Spelled ((x :: p) :: ps) (y :: t) := by
  have hcons : ∀ q : Str, q.toAsciiLowercase = p.toAsciiLowercase →
      toAsciiLowercase (y :: q) = toAsciiLowercase (x :: p) := by
    intro q hq
    rw [toAsciiLowercase, List.map_cons, hxy]
    exact congrArg (x.toLower :: ·) hq
  cases h with
  | last hq => exact .last (hcons _ hq)
  | hyphen hq ht => exact .hyphen (hcons _ hq) ht
  | gap hq hne hrun ht => exact .gap (hcons _ hq) hne hrun ht

theorem spelled_of_respelled {s : Str} (h : Respelled s t) : Spelled (s.splitOn '-') t := by
  induction h with
  | nil => exact .last rfl
  | @case x y s t hxy _ ih =>
    obtain ⟨p, ps, hparts⟩ := List.exists_cons_of_ne_nil (List.splitOn_ne_nil '-' s)
    rw [List.splitOn_cons_eq_if_modifyHead]
    split_ifs with hx
    · have hy : y = '-' := by
        rw [eq_of_beq hx] at hxy
        have hlower : y.toLower = '-' := hxy
        rw [← hlower, toLower_eq_of_lt (by rw [hlower]; decide)]
      rw [hy]
      exact .hyphen (q := []) rfl ih
    · rw [hparts] at ih ⊢
      exact ih.cons hxy
  | @gap run s t hne hrun _ ih =>
    rw [List.splitOn_cons_eq_if_modifyHead, if_pos (beq_self_eq_true _)]
    exact .gap (q := []) rfl hne hrun ih

theorem PlainPart.variant {p q : Str} (hp : PlainPart p)
    (h : q.toAsciiLowercase = p.toAsciiLowercase) :
    q.toAsciiLowercase = p ∧ (∀ d ∈ q, isWhitespace d = false) ∧ q ≠ [] := by
  rw [toAsciiLowercase_of_plain hp.2] at h
  refine ⟨h, fun d hd => ?_, ?_⟩
  · have hplain := hp.2 d.toLower (h ▸ List.mem_map_of_mem hd)
    exact Croc.not_isWhitespace_of_isAsciiGraphic (graphic_of_isPlain_toLower hplain).1
  · rintro rfl
    exact hp.1 h.symm

/-- Spaces made hyphens and letters small, the spelling is undone. -/
theorem Spelled.hyphenated {ps : List Str} (h : Spelled ps t) (hps : ∀ p ∈ ps, PlainPart p) :
    (∃ x rest, t = x :: rest ∧ isWhitespace x = false) ∧ (hyphenated t).toAsciiLowercase =
    join '-' ps := by
  have hhead : ∀ q u : Str, q ≠ [] → (∀ d ∈ q, isWhitespace d = false) →
      ∃ x rest, q ++ u = x :: rest ∧ isWhitespace x = false := by
    intro q u hne hq
    obtain ⟨x, rest, rfl⟩ := List.exists_cons_of_ne_nil hne
    exact ⟨x, rest ++ u, rfl, hq x List.mem_cons_self⟩
  induction h with
  | @last p q hq =>
    obtain ⟨hlower, hspace, hne⟩ := (hps p List.mem_cons_self).variant hq
    rw [join_singleton, hyphenated_of_forall hspace]
    exact ⟨by simpa using hhead q [] hne hspace, hlower⟩
  | @hyphen p q t ps hq ht ih =>
    rw [List.forall_mem_cons] at hps
    obtain ⟨hlower, hspace, hne⟩ := hps.1.variant hq
    obtain ⟨⟨x, rest, rfl, hx⟩, hrest⟩ := ih hps.2
    have hsplit : Str.hyphenated (q ++ '-' :: x :: rest) =
        q ++ '-' :: Str.hyphenated (x :: rest) := by
      rw [hyphenated_append hspace (by decide)]
      exact congrArg (q ++ ·) (hyphenated_append (q := ['-'])
        (List.forall_mem_singleton.mpr rfl) hx rest)
    refine ⟨hhead q _ hne hspace, ?_⟩
    rw [hsplit, join_cons '-' p (by rintro rfl; cases ht), ← hrest, ← hlower]
    exact List.map_append
  | @gap p q run t ps hq hgap hrun ht ih =>
    rw [List.forall_mem_cons] at hps
    obtain ⟨hlower, hspace, hne⟩ := hps.1.variant hq
    obtain ⟨⟨x, rest, rfl, hx⟩, hrest⟩ := ih hps.2
    obtain ⟨w, ws, hwords, -⟩ := splitWhitespace_cons (q := []) (by simp) hx rest
    have hsplit : Str.hyphenated (q ++ run ++ x :: rest) =
        q ++ '-' :: Str.hyphenated (x :: rest) := by
      rw [Str.hyphenated, splitWhitespace_gap hspace hne hrun hgap,
        join_cons '-' q (by rw [hwords]; simp)]
      rfl
    refine ⟨by rw [List.append_assoc]; exact hhead q _ hne hspace, ?_⟩
    rw [hsplit, join_cons '-' p (by rintro rfl; cases ht), ← hrest, ← hlower]
    exact List.map_append

theorem Respelled.colon_not_mem {s : Str} (h : Respelled s t) (hs : ∀ d ∈ s, isPlain d) :
    ':' ∉ t := by
  induction h with
  | nil => exact List.not_mem_nil
  | @case x y s t hxy _ ih =>
    rw [List.forall_mem_cons] at hs
    rw [toLower_of_isPlain hs.1] at hxy
    have hy := (graphic_of_isPlain_toLower (hxy ▸ hs.1)).2
    exact List.not_mem_cons_of_ne_of_not_mem hy.symm (ih hs.2)
  | @gap run s t _ hrun _ ih =>
    rw [List.forall_mem_cons] at hs
    rw [List.mem_append, not_or]
    exact ⟨fun hm => absurd (hrun ':' hm) (by decide), ih hs.2⟩

theorem typed_of_respelled {pre post : Str} (hurl : NeedsScheme R.url) (hwords : crocWords c)
    (hlen : 6 ≤ len c ∧ len c ≤ 128) (h : Respelled c t) (hpre : ∀ d ∈ pre, isWhitespace d)
    (hpost : ∀ d ∈ post, isWhitespace d) (hmax : len (pre ++ t ++ post).trim ≤ maxTextBytes) :
    typed R (pre ++ t ++ post) = some (.croc c) := by
  have hlower : (pre ++ t ++ post).trim.hyphenated.toAsciiLowercase = c := by
    rw [hyphenated_trim, hyphenated, splitWhitespace_around hpre hpost, ← hyphenated]
    rw [((spelled_of_respelled h).hyphenated (plainPart_of_crocWords hwords)).2, join_splitOn]
  have hcolon : ':' ∉ (pre ++ t ++ post).trim := by
    intro hm
    have hmem := mem_of_mem_trim hm
    rw [List.mem_append, List.mem_append] at hmem
    rcases hmem with (hm | hm) | hm
    · exact absurd (hpre ':' hm) (by decide)
    · exact h.colon_not_mem (fun d hd => isPlain_of_crocWords hwords hd) hm
    · exact absurd (hpost ':' hm) (by decide)
  generalize htext : (pre ++ t ++ post).trim = u at hlower hcolon hmax
  have hne : u ≠ [] := by
    rintro rfl
    rw [← hlower] at hlen
    exact absurd hlen.1 (by decide)
  have htyped := typed_of_no_colon hurl (htext ▸ hcolon) (htext ▸ hne) (htext ▸ hmax)
  rw [htyped, htext]
  split_ifs with hcroc
  · -- The text is spelled as croc spells it.
    have hplain : ∀ d ∈ u, isPlain d := fun d hd => isPlain_of_crocWords hcroc.1 hd
    have hjoin : hyphenated u = u := hyphenated_of_forall fun d hd =>
      Croc.not_isWhitespace_of_isAsciiGraphic ((plain_facts hplain).1 d hd)
    rw [hjoin, toAsciiLowercase_of_plain hplain] at hlower
    rw [hlower]
  · have hbytes : 6 ≤ len u.hyphenated ∧ len u.hyphenated ≤ 128 := by
      rwa [← len_toAsciiLowercase, hlower]
    rw [byShape, hlower, if_pos ⟨hbytes, hwords⟩]

end Spellings

/-- What a typed code is taken for. -/
theorem typed_exact (R : Readers) (hurl : NeedsScheme R.url) :
    (∀ text code, typed R text = some (.croc code) → Receivable R code) ∧
    (∀ text code, Wormhole.grammar text = .ok code →
      code = text.trim.toAsciiLowercase ∧ (Croc10s code → typed R text = some (.croc code)) ∧
        (¬ Croc10s code → typed R text = some (.wormhole code none))) ∧
    ∀ c t pre post, crocWords c → 6 ≤ len c ∧ len c ≤ 128 → Respelled c t →
      (∀ d ∈ pre, isWhitespace d) → (∀ d ∈ post, isWhitespace d) →
      len (pre ++ t ++ post).trim ≤ maxTextBytes → typed R (pre ++ t ++ post) = some (.croc c) :=
  ⟨fun _ _ => receivable_of_typed, fun _ _ => typed_of_grammar hurl,
    fun _ _ _ _ hwords hlen h => typed_of_respelled hurl hwords hlen h⟩

section Samples

/-- croc's link around a code, as the url crate reads it. -/
def webLink : Str := "https://getcroc.com/?code=alpha-bravo-charlie".toList

def knownDigest (text : Bytes) : Bytes :=
  if text = Croc.utf8 "acidcroc".toList then
    [247, 36, 145, 194, 111, 50, 13, 168, 169, 62, 163, 35, 216, 210, 59, 69, 97, 224,
      99, 79, 150, 123, 162, 28, 178, 104, 161, 205, 13, 244, 138, 18]
  else if text = Croc.utf8 "acid-acid-acid".toList then
    [96, 211, 130, 188, 95, 180, 179, 80, 8, 219, 120, 16, 33, 67, 57, 170, 13, 234, 34,
      54, 66, 126, 28, 204, 5, 72, 197, 7, 53, 164, 31, 145]
  else []

def sampleReaders : Readers where
  url text :=
    if text = webLink then some ⟨"https".toList, [], none, some (.domain webHost), none,
      some 443, ['/'], some "code=alpha-bravo-charlie".toList, none⟩
    else none
  urlText _ := webLink
  queryPairs _ := [("code".toList, "alpha-bravo-charlie".toList)]
  transferUri _ := none
  wormholeCode := some
  hashes := ⟨knownDigest, fun _ message => message, fun _ key _ n => key.take n⟩

theorem needsScheme_sampleReaders : NeedsScheme sampleReaders.url := by
  intro text h
  refine if_neg ?_
  rintro rfl
  exact h (by decide)

def shortCode : Str := ['a', 'b', '-', 'c', '-', 'd']

/-- The code with a capital, and two spaces for a hyphen. -/
def spokenCode : Str := ['A', 'b', ' ', ' ', 'c', '-', 'd']

theorem respelled_spokenCode : Respelled shortCode spokenCode :=
  .case rfl (.case rfl (@Respelled.gap [' ', ' '] _ _ (List.cons_ne_nil _ _)
    (List.forall_mem_cons.mpr ⟨rfl, List.forall_mem_singleton.mpr rfl⟩)
    (.case rfl (.case rfl (.case rfl .nil)))))

end Samples

theorem typed_exact_sample :
    (typed sampleReaders ([' '] ++ spokenCode ++ ['\t']) = some (.croc shortCode) ∧
      Receivable sampleReaders shortCode) ∧
    typed sampleReaders "7-Tub-sum ".toList = some (.wormhole "7-tub-sum".toList none) := by
  have hcroc :=
    (typed_exact sampleReaders needsScheme_sampleReaders).2.2 shortCode spokenCode [' '] ['\t']
    (by decide) (by decide) respelled_spokenCode (List.forall_mem_singleton.mpr rfl)
    (List.forall_mem_singleton.mpr rfl) (by decide)
  have hnumber : ¬ Croc10s "7-tub-sum".toList := by
    rintro ⟨nameplate, words, hparts, hfour, -⟩
    obtain ⟨rfl, -⟩ := List.cons.inj hparts
    exact absurd hfour (by decide)
  have hwormhole := (typed_exact sampleReaders needsScheme_sampleReaders).2.1 "7-Tub-sum ".toList
    "7-tub-sum".toList (by decide +kernel)
  exact ⟨⟨hcroc, (typed_exact sampleReaders needsScheme_sampleReaders).1 _ _ hcroc⟩,
    hwormhole.2.2 hnumber⟩

section Generated

open Croc (Code Generated effWords fourLetterWords generateWith forCode forSending)

variable {on : Option (ℕ × ℕ)} {code : Code}

theorem crocWords_of_generated {H : Hashes} (h : Generated H on code) : crocWords code.typed := by
  obtain ⟨hthree, hall⟩ := h.parts
  obtain ⟨pin, words, hparts⟩ := List.exists_cons_of_ne_nil (List.splitOn_ne_nil '-' code.typed)
  rw [hparts, List.forall_mem_cons] at hall
  rw [hparts, List.length_cons] at hthree
  exact crocWords_iff.mpr ⟨pin, words, hparts, hall.2, .inr ⟨hall.1, by omega⟩⟩

theorem read_typed_of_generated (hurl : NeedsScheme R.url) (h : Generated R.hashes on code) :
    read R code.typed = .croc code.typed ∧ typed R code.typed = some (.croc code.typed) := by
  have hwords := crocWords_of_generated h
  obtain ⟨hgraphic, hcolon⟩ := plain_facts fun d hd => isPlain_of_crocWords hwords hd
  have htrim : code.typed.trim = code.typed :=
    trim_of_forall fun d hd => Croc.not_isWhitespace_of_isAsciiGraphic (hgraphic d hd)
  have hlen := h.len_typed
  have hbytes : 6 ≤ len code.typed ∧ len code.typed ≤ 128 := ⟨hlen.1, hlen.2.trans (by decide)⟩
  have hmax : len code.typed ≤ maxTextBytes := hlen.2.trans (by decide)
  have hne : code.typed ≠ [] := by
    intro hnil
    rw [hnil] at hbytes
    exact absurd hbytes.1 (by decide)
  rw [← htrim] at hcolon hmax hne
  rw [read_of_no_colon hurl hcolon hmax, typed_of_no_colon hurl hcolon hne hmax, htrim,
    if_pos hwords, crocScanned_of_crocWords hwords, if_pos hbytes, if_pos ⟨hwords, hbytes⟩]
  exact ⟨rfl, rfl⟩

/-- A new code reads the same to croc 10, to the receiver, and to whoever scans or types it, and
takes the receiver to the relay it was made for. -/
theorem generateWith_agrees (R : Readers) (hurl : NeedsScheme R.url)
    (draws : ℕ → Except ErrorInfo (UInt8 × UInt8)) (on : Option (ℕ × ℕ)) (fuel : ℕ) (code : Code)
    (h : generateWith draws R.hashes on fuel = some (.ok code)) :
    (∃ first second third, (∀ w ∈ [first, second, third], w ∈ effWords) ∧ first.length = 4 ∧
      first.all Char.isLower ∧ code.typed = join '-' [first, second, third]) ∧
    (code.typed.getTo 4 = some (Croc.split code.typed).1 ∧
      code.typed.getFrom 5 = some (Croc.split code.typed).2) ∧
    code.isCroc10s = false ∧
    (∀ index pool, on = some (index, pool) → code.relayIndex R.hashes pool = index) ∧
    Croc.parse R.hashes code.typed = .ok code ∧
    (read R code.typed = .croc code.typed ∧ typed R code.typed = some (.croc code.typed)) ∧
    ∀ relays relay, (relay, on) ∈ forSending relays → forCode R.hashes code relays = relay := by
  have hgen := Croc.generateWith_generated h
  obtain ⟨first, hfirst, second, hsecond, third, hthird, htyped⟩ := hgen.typed
  obtain ⟨hlist, hword, hfour⟩ := Croc.mem_fourLetterWords hfirst
  refine ⟨⟨first, second, third, ?_, ?_, ?_, htyped⟩, hgen.byte_rule, hgen.not_croc10s, hgen.relay,
    hgen.parse_typed, read_typed_of_generated hurl hgen, fun _ _ => hgen.forCode_eq⟩
  · simp [hlist, hsecond, hthird]
  · rw [← Croc.len_of_isWord hword, hfour]
  · exact List.all_eq_true.mpr (isWord_iff.mp hword).2

def zeros : ℕ → Except ErrorInfo (UInt8 × UInt8) := fun _ => .ok (0, 0)

theorem pick_zeros {words : List Str} {w : Str} (hw : words[0]? = some w)
    (hlen : words.length ≤ 1296) (fuel i : ℕ) :
    Croc.pick zeros words (fuel + 1) i = some (.ok (w, i + 1)) := by
  have hlimit : 0 < 65536 / max words.length 1 * max words.length 1 := by
    have hdiv : 0 < 65536 / max words.length 1 := Nat.div_pos (by omega) (by omega)
    exact Nat.mul_pos hdiv (by omega)
  have hdraw : Croc.draw zeros i = some (.ok ((0, 0), i + 1)) := rfl
  have hzero : (0 : UInt8).toNat + 256 * (0 : UInt8).toNat = 0 := rfl
  rw [Croc.pick, if_pos (by omega), Croc.bind_of_eq hdraw]
  dsimp only
  rw [hzero, if_pos hlimit, Nat.zero_mod, hw]
  rfl

def firstCode : Code := Code.new sampleReaders.hashes "acid-acid-acid".toList

theorem generateWith_zeros :
    generateWith zeros sampleReaders.hashes (some (1, 4)) 1 = some (.ok firstCode) := by
  have hlist : effWords[0]? = some "acid".toList := rfl
  have hfour : fourLetterWords[0]? = some "acid".toList := by
    decide +kernel
  have hlen : effWords.length ≤ 1296 := by
    rw [effWords, List.length_map]
    decide +kernel
  have hlen' : fourLetterWords.length ≤ 1296 := (List.length_filter_le _ _).trans hlen
  have hindex : firstCode.relayIndex sampleReaders.hashes 4 = 1 := by
    rw [Code.relayIndex, show firstCode.typed = "acid-acid-acid".toList from rfl]
    decide +kernel
  have hloop : Croc.generateLoop zeros sampleReaders.hashes (some (1, 4)) 1 1 0 =
      some (.ok (firstCode, 3)) := by
    rw [Croc.generateLoop, Croc.bind_of_eq (pick_zeros hfour hlen' 0 0),
      Croc.bind_of_eq (pick_zeros hlist hlen 0 1), Croc.bind_of_eq (pick_zeros hlist hlen 0 2)]
    change (if firstCode.relayIndex sampleReaders.hashes 4 ≠ 1 then _
      else pure firstCode : Croc.Drawn Code) 3 = _
    rw [if_neg (not_not.mpr hindex)]
    rfl
  exact Croc.run'_of_eq hloop

/-- Made for the second relay, which is where it takes the receiver. -/
theorem generateWith_agrees_zeros :
    Croc.parse sampleReaders.hashes firstCode.typed = .ok firstCode ∧
    typed sampleReaders firstCode.typed = some (.croc firstCode.typed) ∧
    forCode sampleReaders.hashes firstCode (.publicRelays Config.defaultPassword) =
      ⟨"2.getcroc.com".toList, 9009, Config.defaultPassword⟩ := by
  obtain ⟨-, -, -, -, hparse, hread, hrelay⟩ := generateWith_agrees sampleReaders
    needsScheme_sampleReaders zeros (some (1, 4)) 1 firstCode generateWith_zeros
  exact ⟨hparse, hread.2, hrelay (.publicRelays Config.defaultPassword) _ (by decide +kernel)⟩

end Generated

end Sukkula.Scan
