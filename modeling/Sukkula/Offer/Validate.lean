import Sukkula.Config.Settings
import Sukkula.Offer.Fields
import Sukkula.Text.Message

/-! # The check of an offer

`Offer::validate` takes an offer as the peer described it and gives what the user
is asked about, or the first rule that it breaks. The rules are stated on their
own as `Acceptable`, with the sizes and their sum as integers: the check accepts
exactly the offers that meet them. What it gives is already clean, so that an
accepted offer, described again, is accepted as it is.
-/

namespace Sukkula

structure Offer where
  protocol : Protocol
  sender : Str
  model : Option Str
  files : List Offer.OfferFile
  totalBytes : ℕ
  text : Option Str
  pin : Option Str
  deriving DecidableEq

end Sukkula

namespace Sukkula.Offer

open Str Name Text
open Config (maxAliasChars maxPinChars)

def maxModelChars : ℕ := 64

def unknownSender : Str := "Unknown device".toList

/-- One turn of the loop over the files: the total with this one, and the file. A size that does not
fit an `u64` is over the limit, and so is a total. -/
def checkFile (i total : ℕ) (f : RawFile) : Except OfferError (ℕ × OfferFile) := do
  ensure (0 ≤ f.size) (.negativeSize i)
  ensure (f.size.toNat ≤ maxFileBytes) (.fileTooLarge i)
  let total := total + f.size.toNat
  ensure (total ≤ maxOfferBytes) .offerTooLarge
  let sha256 ← checkDigest i f.sha256
  return (total, ⟨.ofRaw f.name, f.size.toNat, f.mime.bind cleanMime, sha256⟩)

/-- The loop over the files, with the total and the files so far. -/
def loop (i total : ℕ) (files : List OfferFile) :
    List RawFile → Except OfferError (ℕ × List OfferFile)
  | [] => .ok (total, files)
  | f :: fs => do
    let (total, file) ← checkFile i total f
    loop (i + 1) total (files ++ [file]) fs

def checkPin : Option Str → Except OfferError (Option Str)
  | none => .ok none
  | some p =>
    if p ≠ [] ∧ p.length ≤ maxPinChars ∧ p.all Char.isDigit then .ok (some p) else .error .badPin

def shown (s : Option Str) : Option Str := s.filter (· ≠ [])

def checkSender (raw : Str) : Str :=
  let sender := display raw maxAliasChars
  if sender = [] then unknownSender else sender

def validate (raw : RawOffer) : Except OfferError Offer := do
  ensure (¬ (raw.files = [] ∧ raw.text.all List.isEmpty)) .empty
  ensure (raw.files.length ≤ maxFilesPerOffer) (.tooManyFiles raw.files.length)
  ensure (¬ raw.text.any (maxMessageBytes < len ·)) .textTooLarge
  let (total, files) ← loop 0 0 [] raw.files
  let pin ← checkPin raw.pin
  let text := shown (raw.text.map (message maxMessageBytes))
  ensure (¬ (files = [] ∧ text = none)) .empty
  return {
    protocol := raw.protocol
    sender := checkSender raw.sender
    model := shown (raw.model.map (display · maxModelChars))
    files
    totalBytes := total
    text
    pin }

/-- A checked offer as a peer would describe it. -/
def toRaw (o : Offer) : RawOffer where
  protocol := o.protocol
  sender := o.sender
  model := o.model
  files := o.files.map fun f => ⟨f.name.val, f.size, f.mime, f.sha256.map hexEncode⟩
  text := o.text
  pin := o.pin

def DigestOk (sha256 : Option Str) : Prop :=
  ∀ h ∈ sha256, trim h = [] ∨ ((trim h).length = 64 ∧ (trim h).all isHexDigit)

structure Acceptable (raw : RawOffer) : Prop where
  files : raw.files.length ≤ 500
  sizes : ∀ f ∈ raw.files, 0 ≤ f.size ∧ f.size ≤ 8 * 1024 ^ 3
  total : (raw.files.map RawFile.size).sum ≤ 16 * 1024 ^ 3
  text : ∀ t ∈ raw.text, len t ≤ 64 * 1024
  digests : ∀ f ∈ raw.files, DigestOk f.sha256
  pin : ∀ p ∈ raw.pin, 1 ≤ p.length ∧ p.length ≤ 16 ∧ p.all Char.isDigit
  something : raw.files ≠ [] ∨ ∃ t ∈ raw.text, message maxMessageBytes t ≠ []

/-- The digest that a file is checked against. -/
def digest (sha256 : Option Str) : Option Bytes := sha256.bind fun h => decode32 (trim h)

def checked (f : RawFile) : OfferFile :=
  ⟨.ofRaw f.name, f.size.toNat, f.mime.bind cleanMime, digest f.sha256⟩

section Files

variable {i total : ℕ} {f : RawFile} {fs : List RawFile} {files : List OfferFile}

theorem checkDigest_eq_ok {sha256 : Option Str} {d : Option Bytes} :
    checkDigest i sha256 = .ok d ↔ DigestOk sha256 ∧ d = digest sha256 := by
  cases sha256 with
  | none =>
    have hok : DigestOk none := nofun
    simp [checkDigest, hok, digest, eq_comm]
  | some h =>
    have hok : DigestOk (some h) ↔ trim h = [] ∨ (decode32 (trim h)).isSome := by
      rw [isSome_decode32]
      simp [DigestOk]
    rw [hok]
    change _ ↔ _ ∧ d = decode32 (trim h)
    unfold checkDigest
    rw [Option.map_some]
    cases ht : trim h with
    | nil => simp [decode32, eq_comm]
    | cons c t =>
      simp only
      cases hd : decode32 (c :: t) with
      | none => simp
      | some d' => simp [eq_comm]

theorem checkFile_eq_ok {r : ℕ × OfferFile} : checkFile i total f = .ok r ↔
    (0 ≤ f.size ∧ f.size.toNat ≤ maxFileBytes) ∧ total + f.size.toNat ≤ maxOfferBytes ∧
      DigestOk f.sha256 ∧ r = (total + f.size.toNat, checked f) := by
  simp only [checkFile, bind, bind_eq_ok, ensure_eq_ok, checkDigest_eq_ok,
    exists_and_left, exists_const, pure, Except.pure, Except.ok.injEq, and_assoc, exists_eq_left]
  rw [eq_comm (a := r)]
  rfl

/-- The sizes of the files, as the loop adds them up. -/
def sum (fs : List RawFile) : ℕ := (fs.map fun f => f.size.toNat).sum

/-- The loop stops where the running total is over the limit; it never is if the whole is not. -/
theorem loop_eq_ok (ht : total ≤ maxOfferBytes) {r : ℕ × List OfferFile} :
    loop i total files fs = .ok r ↔
      (∀ f ∈ fs, (0 ≤ f.size ∧ f.size.toNat ≤ maxFileBytes) ∧ DigestOk f.sha256) ∧
        total + sum fs ≤ maxOfferBytes ∧ r = (total + sum fs, files ++ fs.map checked) := by
  induction fs generalizing i total files with
  | nil => simp [loop, sum, ht, eq_comm]
  | cons f fs ih =>
    have hsum : total + sum (f :: fs) = total + f.size.toNat + sum fs := by
      simp [sum, Nat.add_assoc]
    simp only [loop, bind, bind_eq_ok, checkFile_eq_ok, hsum]
    constructor
    · rintro ⟨r', ⟨hsize, htotal, hd, rfl⟩, hr⟩
      obtain ⟨hall, hle, rfl⟩ := (ih htotal).mp hr
      exact ⟨List.forall_mem_cons.mpr ⟨⟨hsize, hd⟩, hall⟩, hle, by simp⟩
    · rintro ⟨hall, hle, rfl⟩
      obtain ⟨⟨hsize, hd⟩, hall⟩ := List.forall_mem_cons.mp hall
      have htotal : total + f.size.toNat ≤ maxOfferBytes := by omega
      exact ⟨_, ⟨hsize, htotal, hd, rfl⟩, (ih htotal).mpr ⟨hall, hle, by simp⟩⟩

theorem cast_sum (h : ∀ f ∈ fs, 0 ≤ f.size) : (sum fs : ℤ) = (fs.map RawFile.size).sum := by
  induction fs with
  | nil => rfl
  | cons f fs ih =>
    obtain ⟨hf, hfs⟩ := List.forall_mem_cons.mp h
    have hcons : sum (f :: fs) = f.size.toNat + sum fs := List.sum_cons
    rw [hcons, Nat.cast_add, ih hfs, Int.toNat_of_nonneg hf, List.map_cons, List.sum_cons]

end Files

theorem checkPin_eq_ok {p q : Option Str} : checkPin p = .ok q ↔
    (∀ x ∈ p, 1 ≤ x.length ∧ x.length ≤ 16 ∧ x.all Char.isDigit) ∧ q = p := by
  cases p with
  | none => exact ⟨fun h => ⟨nofun, (Except.ok.inj h).symm⟩, fun h => by rw [h.2]; rfl⟩
  | some p =>
    have hp : (p ≠ [] ∧ p.length ≤ maxPinChars ∧ p.all Char.isDigit) ↔
        ∀ x ∈ some p, 1 ≤ x.length ∧ x.length ≤ 16 ∧ x.all Char.isDigit := by
      simp only [Option.mem_def, Option.some.injEq, forall_eq']
      rw [Nat.one_le_iff_ne_zero, Ne, Ne, List.length_eq_zero_iff]
      rfl
    rw [← hp, checkPin]
    split_ifs with h
    · exact ⟨fun hq => ⟨h, (Except.ok.inj hq).symm⟩, fun hq => by rw [hq.2]⟩
    · exact ⟨nofun, fun hq => absurd hq.1 h⟩

def clean (raw : RawOffer) : Offer where
  protocol := raw.protocol
  sender := checkSender raw.sender
  model := shown (raw.model.map (display · maxModelChars))
  files := raw.files.map checked
  totalBytes := sum raw.files
  text := shown (raw.text.map (message maxMessageBytes))
  pin := raw.pin

theorem shown_eq_none {s : Option Str} : shown s = none ↔ ∀ t ∈ s, t = [] := by
  cases s <;> simp [shown]

theorem shown_some {s : Str} (h : s ≠ []) : shown (some s) = some s :=
  Option.filter_some_pos (by simpa using h)

/-- An offer with nothing in it is refused at once, and one whose text has nothing to show at the
end. -/
theorem something_iff {raw : RawOffer} :
    (raw.files ≠ [] ∨ ∃ t ∈ raw.text, message maxMessageBytes t ≠ []) ↔
      ¬ (raw.files = [] ∧ raw.text.all List.isEmpty) ∧
        ¬ (raw.files.map checked = [] ∧ shown (raw.text.map (message maxMessageBytes)) = none) := by
  rw [shown_eq_none, List.map_eq_nil_iff]
  by_cases hf : raw.files = []
  · cases ht : raw.text with
    | none => simp [hf]
    | some t =>
      have hnil : t = [] → message maxMessageBytes t = [] := fun h => by rw [h]; rfl
      simp only [hf, ne_eq, not_true_eq_false, false_or, Option.mem_def, Option.some.injEq,
        exists_eq_left', true_and, Option.all_some, List.isEmpty_iff, Option.map_some, forall_eq']
      exact ⟨fun h => ⟨mt hnil h, h⟩, fun h => h.2⟩
  · simp [hf]

theorem size_iff {f : RawFile} :
    (0 ≤ f.size ∧ f.size.toNat ≤ maxFileBytes) ↔ 0 ≤ f.size ∧ f.size ≤ 8 * 1024 ^ 3 := by
  have hmax : (maxFileBytes : ℤ) = 8 * 1024 ^ 3 := by decide
  refine and_congr_right fun h => ?_
  rw [← Int.ofNat_le, Int.toNat_of_nonneg h, hmax]

theorem text_iff {t : Option Str} :
    ¬ t.any (maxMessageBytes < len ·) ↔ ∀ x ∈ t, len x ≤ 64 * 1024 := by
  cases t with
  | none => simp
  | some t =>
    simp only [Option.any_some, Option.mem_def, Option.some.injEq, forall_eq', decide_eq_true_eq,
      Nat.not_lt]
    rfl

theorem total_iff {fs : List RawFile} (h : ∀ f ∈ fs, 0 ≤ f.size) :
    0 + sum fs ≤ maxOfferBytes ↔ (fs.map RawFile.size).sum ≤ 16 * 1024 ^ 3 := by
  have hmax : (maxOfferBytes : ℤ) = 16 * 1024 ^ 3 := by decide
  rw [Nat.zero_add, ← cast_sum h, ← hmax, Int.ofNat_le]

theorem validate_eq_ok {raw : RawOffer} {o : Offer} :
    validate raw = .ok o ↔ Acceptable raw ∧ o = clean raw := by
  have hloop := fun r => @loop_eq_ok 0 0 raw.files [] (Nat.zero_le maxOfferBytes) r
  simp only [validate, bind, bind_eq_ok, ensure_eq_ok, hloop, checkPin_eq_ok, pure, Except.pure,
    Except.ok.injEq, exists_const]
  constructor
  · rintro ⟨hempty, hcount, htext, _, ⟨hfiles, htotal, rfl⟩, _, ⟨hpin, rfl⟩, hshown, rfl⟩
    have hsizes := fun f hf => size_iff.mp (hfiles f hf).1
    refine ⟨⟨hcount, hsizes, ?_, text_iff.mp htext, fun f hf => (hfiles f hf).2, hpin, ?_⟩, ?_⟩
    · exact (total_iff fun f hf => (hsizes f hf).1).mp htotal
    · exact something_iff.mpr ⟨hempty, hshown⟩
    · simp [clean]
  · rintro ⟨h, rfl⟩
    obtain ⟨hempty, hshown⟩ := something_iff.mp h.something
    have hfiles := fun f hf => And.intro (size_iff.mpr (h.sizes f hf)) (h.digests f hf)
    have htotal := (total_iff fun f hf => (h.sizes f hf).1).mpr h.total
    exact ⟨hempty, h.files, text_iff.mpr h.text, _, ⟨hfiles, htotal, rfl⟩, _, ⟨h.pin, rfl⟩, hshown,
      by simp [clean]⟩

section Again

variable {raw : RawOffer} {f : RawFile}

theorem display_unknownSender : display unknownSender maxAliasChars = unknownSender := by
  decide +kernel

theorem checkSender_checkSender (s : Str) : checkSender (checkSender s) = checkSender s := by
  unfold checkSender
  simp only
  split_ifs with h h' h'
  · rfl
  · exact display_unknownSender
  · rw [display_display] at h'
    exact absurd h' h
  · exact display_display _ _

/-- Where a normaliser changes nothing that it gave, text that is shown stays as it is. -/
theorem shown_map_shown {g : Str → Str} (hg : ∀ s, g (g s) = g s) (s : Option Str) :
    shown ((shown (s.map g)).map g) = shown (s.map g) := by
  cases s with
  | none => rfl
  | some s =>
    by_cases hs : g s = []
    · rw [Option.map_some, hs]
      rfl
    · rw [Option.map_some, shown_some hs, Option.map_some, hg, shown_some hs]

theorem isHexDigit_of_isLowerHex {c : Char} (h : isLowerHex c) : isHexDigit c := by
  unfold isHexDigit
  rw [isLowerHex] at h
  rw [h, Bool.true_or]

theorem digest_digest (sha256 : Option Str) :
    digest ((digest sha256).map hexEncode) = digest sha256 ∧
    DigestOk ((digest sha256).map hexEncode) := by
  cases hd : digest sha256 with
  | none => exact ⟨rfl, nofun⟩
  | some d =>
    obtain ⟨h, -, hdec⟩ := Option.bind_eq_some_iff.mp hd
    have hlen := length_of_decode32 hdec
    constructor
    · change decode32 (trim (hexEncode d)) = some d
      rw [trim_hexEncode, decode32_hexEncode hlen]
    · rintro _ ⟨⟩
      rw [trim_hexEncode]
      refine Or.inr ⟨by rw [length_hexEncode, hlen], List.all_eq_true.mpr fun c hc => ?_⟩
      exact isHexDigit_of_isLowerHex (List.all_eq_true.mp (all_isLowerHex_hexEncode d) c hc)

def rawOf (f : OfferFile) : RawFile := ⟨f.name.val, f.size, f.mime, f.sha256.map hexEncode⟩

theorem cleanMime_bind_bind (mime : Option Str) :
    (mime.bind cleanMime).bind cleanMime = mime.bind cleanMime := by
  cases hm : mime.bind cleanMime with
  | none => rfl
  | some r =>
    obtain ⟨m, -, hr⟩ := Option.bind_eq_some_iff.mp hm
    exact cleanMime_of_cleanMime hr

theorem checked_rawOf_checked : checked (rawOf (checked f)) = checked f := by
  unfold checked rawOf
  simp only
  rw [SafeName.ofRaw_val, cleanMime_bind_bind, (digest_digest f.sha256).1, Int.toNat_natCast]

theorem sum_rawOf (fs : List RawFile) : sum ((fs.map checked).map rawOf) = sum fs := by
  rw [sum, sum, List.map_map, List.map_map]
  exact congrArg List.sum (List.map_congr_left fun f _ => Int.toNat_natCast _)

theorem clean_toRaw_clean (raw : RawOffer) : clean (clean raw).toRaw = clean raw := by
  have hfiles : (((raw.files.map checked).map rawOf).map checked) = raw.files.map checked := by
    simp only [List.map_map]
    exact List.map_congr_left fun f _ => checked_rawOf_checked
  change Offer.mk _ _ _ _ _ _ _ = Offer.mk _ _ _ _ _ _ _
  rw [Offer.mk.injEq]
  exact ⟨rfl, checkSender_checkSender _, shown_map_shown (fun s => display_display s _) _, hfiles,
    sum_rawOf _, shown_map_shown (message_message _) _, rfl⟩

theorem acceptable_toRaw (h : Acceptable raw) : Acceptable (clean raw).toRaw := by
  have hsize : ∀ f ∈ (clean raw).toRaw.files, ∃ g ∈ raw.files, f = rawOf (checked g) := by
    intro f hf
    obtain ⟨c, hc, rfl⟩ := List.mem_map.mp hf
    obtain ⟨g, hg, rfl⟩ := List.mem_map.mp hc
    exact ⟨g, hg, rfl⟩
  have hnonneg : ∀ f ∈ (clean raw).toRaw.files, 0 ≤ f.size := by
    intro f hf
    obtain ⟨g, -, rfl⟩ := hsize f hf
    exact Int.natCast_nonneg _
  constructor
  · simpa [toRaw, clean] using h.files
  · intro f hf
    obtain ⟨g, hg, rfl⟩ := hsize f hf
    refine ⟨Int.natCast_nonneg _, ?_⟩
    change ((g.size.toNat : ℕ) : ℤ) ≤ _
    rw [Int.toNat_of_nonneg (h.sizes g hg).1]
    exact (h.sizes g hg).2
  · rw [← cast_sum hnonneg]
    change ((sum ((raw.files.map checked).map rawOf) : ℕ) : ℤ) ≤ _
    rw [sum_rawOf, cast_sum fun f hf => (h.sizes f hf).1]
    exact h.total
  · intro t ht
    obtain ⟨s, -, rfl⟩ := Option.map_eq_some_iff.mp (Option.filter_eq_some_iff.mp ht).1
    exact len_message_le _ _
  · intro f hf
    obtain ⟨g, -, rfl⟩ := hsize f hf
    exact (digest_digest g.sha256).2
  · exact h.pin
  · rcases h.something with hf | ⟨t, ht, hm⟩
    · exact Or.inl (by simpa [toRaw, clean] using hf)
    · refine Or.inr ⟨message maxMessageBytes t, ?_, by rwa [message_message]⟩
      change shown (raw.text.map _) = some _
      rw [Option.mem_def.mp ht, Option.map_some, shown_some hm]

end Again

theorem length_files_of_validate {raw : RawOffer} {o : Offer} (h : validate raw = .ok o) :
    o.files.length = raw.files.length := by
  obtain ⟨-, rfl⟩ := validate_eq_ok.mp h
  exact List.length_map _

/-- The check accepts exactly what meets the rules; the total is the exact sum, the files are those
offered, and what was accepted is accepted again as it is. -/
theorem validate_exact (raw : RawOffer) :
    ((∃ o, validate raw = .ok o) ↔ Acceptable raw) ∧
    ∀ o, validate raw = .ok o →
      (o.totalBytes : ℤ) = (raw.files.map RawFile.size).sum ∧
      o.files.length = raw.files.length ∧
      (o.files.map fun f => (f.name.val, (f.size : ℤ))) =
      raw.files.map (fun f => (sanitize f.name, f.size)) ∧ validate o.toRaw = .ok o := by
  constructor
  · simp only [validate_eq_ok]
    exact ⟨fun ⟨o, h, _⟩ => h, fun h => ⟨clean raw, h, rfl⟩⟩
  · intro o ho
    obtain ⟨h, rfl⟩ := validate_eq_ok.mp ho
    refine ⟨cast_sum fun f hf => (h.sizes f hf).1, by simp [clean], ?_, ?_⟩
    · change (raw.files.map checked).map _ = _
      rw [List.map_map]
      refine List.map_congr_left fun f hf => ?_
      change ((SafeName.ofRaw f.name).val, ((f.size.toNat : ℕ) : ℤ)) = _
      rw [SafeName.val_ofRaw, Int.toNat_of_nonneg (h.sizes f hf).1]
    · exact validate_eq_ok.mpr ⟨acceptable_toRaw h, (clean_toRaw_clean raw).symm⟩

/-- Two files with a path in a name, a type and a digest, a text and a PIN. -/
def twoFiles : RawOffer where
  protocol := .quickShare
  sender := "  Anna phone ".toList
  model := some "Pixel".toList
  files := [⟨"../notes.txt".toList, 3, some "Text/Plain; charset=utf-8".toList,
      some (' ' :: List.replicate 64 'A')⟩, ⟨"b".toList, 5, none, some []⟩]
  text := some "see these".toList
  pin := some "1234".toList

theorem validate_exact_two : ∃ o, validate twoFiles = .ok o ∧ o.totalBytes = 8 ∧
    (o.files.map fun f => (f.name.val, (f.size : ℤ))) =
      [(sanitize "../notes.txt".toList, 3), (sanitize "b".toList, 5)] ∧
    o.files.map (fun f => (f.mime, f.sha256.map List.length)) =
      [(some "text/plain".toList, some 32), (none, none)] ∧
    o.pin = some "1234".toList ∧ validate o.toRaw = .ok o := by
  have hdigest : DigestOk (some (' ' :: List.replicate 64 'A')) := by
    rintro _ ⟨⟩
    exact Or.inr (by decide +kernel)
  have hok : Acceptable twoFiles := by
    refine ⟨by decide, ?_, by decide, ?_, ?_, ?_, Or.inl nofun⟩
    · simp [twoFiles]
    · rintro _ ⟨⟩
      decide
    · simp only [twoFiles, List.forall_mem_cons]
      exact ⟨hdigest, by simp [DigestOk, trim], nofun⟩
    · rintro _ ⟨⟩
      decide
  obtain ⟨o, ho⟩ := (validate_exact twoFiles).1.mpr hok
  obtain ⟨htotal, -, hfiles, hagain⟩ := (validate_exact twoFiles).2 o ho
  have hsum : (twoFiles.files.map RawFile.size).sum = 8 := rfl
  rw [hsum] at htotal
  obtain ⟨-, rfl⟩ := validate_eq_ok.mp ho
  exact ⟨_, ho, by exact_mod_cast htotal, hfiles, by decide +kernel, rfl, hagain⟩

end Sukkula.Offer
