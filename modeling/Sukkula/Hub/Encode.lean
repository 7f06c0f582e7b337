import Sukkula.Hub.Gate
import Sukkula.Library.JsonText
import Sukkula.Text.Lines
import Sukkula.Transfer.Registry

/-! # The size of an event

Events go to the shell as JSON, and the gate holds each to a number of bytes. An
event that is built from a checked offer is within it: the lists, names and texts
are capped before they get there, and escaping at most doubles what the cleaning
lets through.
-/

namespace Sukkula.Hub

open Str Text JsonText Offer
open LocalSend (ErrorInfo ErrorCode Outcome)
open Transfer (Direction FileView TransferView Begin maxListedFiles saturatingAdd)
open Name (Safe numbered)

/-- `OFFER_TIMEOUT`, in seconds. -/
def offerTimeout : ℕ := 60

structure OfferView where
  id : ℕ
  protocol : Protocol
  sender : Str
  model : Option Str
  files : List FileView
  moreFiles : ℕ
  fileCount : ℕ
  totalBytes : ℕ
  hasText : Bool
  pin : Option Str
  expiresIn : ℕ
  deriving DecidableEq, Repr

/-- The events about offers that the gate does not look into. -/
inductive Told
  | offerPending (offer : OfferView)
  | transferStarted (transfer : TransferView)
  | textReceived (transfer : ℕ) (sender text : Str)
  deriving DecidableEq, Repr

/-- `consent_observer`: what is told of an offer that waits. -/
def pendingView (id : ℕ) (offer : Offer) : OfferView :=
  let files := (offer.files.take maxListedFiles).map fun f => ⟨f.name.val, f.size⟩
  { id, protocol := offer.protocol, sender := offer.sender, model := offer.model, files,
    moreFiles := offer.files.length - files.length, fileCount := offer.files.length,
    totalBytes := offer.totalBytes, hasText := offer.text.isSome, pin := offer.pin,
    expiresIn := offerTimeout }

section Encode

def protocolName : Protocol → String
  | .localSend => "local_send"
  | .quickShare => "quick_share"
  | .wormhole => "wormhole"
  | .bluetooth => "bluetooth"
  | .croc => "croc"

def directionName : Direction → String
  | .incoming => "incoming"
  | .outgoing => "outgoing"

def text (s : String) : Str := string s.toList

def fileJson (f : FileView) : Str := object [("name", string f.name), ("size", number f.size)]

def errorJson (e : ErrorInfo) : Str :=
  object [("code", text (codeName e.code)), ("message", text e.message)]

def outcomeJson : Outcome → Str
  | .done => object [("result", text "done")]
  | .cancelled => object [("result", text "cancelled")]
  | .failed e => object [("result", text "failed"), ("error", errorJson e)]

def offerJson (v : OfferView) : Str :=
  object ([("id", number v.id), ("protocol", text (protocolName v.protocol)),
    ("sender", string v.sender)] ++ (optional "model" (v.model.map string) ++
    ([("files", array (v.files.map fileJson)), ("more_files", number v.moreFiles),
      ("file_count", number v.fileCount), ("total_bytes", number v.totalBytes),
      ("has_text", bool v.hasText)] ++
    (optional "pin" (v.pin.map string) ++ [("expires_in", number v.expiresIn)]))))

def transferJson (v : TransferView) : Str :=
  object [("id", number v.id), ("direction", text (directionName v.direction)),
    ("protocol", text (protocolName v.protocol)), ("peer", string v.peer),
    ("files", array (v.files.map fileJson)), ("file_count", number v.fileCount),
    ("total_bytes", number v.totalBytes)]

def encode : Event Told → Str
  | .reply id (.ok transfer) =>
    object ([("type", text "reply"), ("id", number id.toNat), ("ok", bool true)] ++
      optional "transfer" (transfer.map fun t => number t.toNat))
  | .reply id (.error e) =>
    object [("type", text "reply"), ("id", number id.toNat), ("ok", bool false),
      ("error", errorJson e)]
  | .transferFinished transfer outcome saved =>
    object ([("type", text "transfer_finished"), ("transfer", number transfer.toNat),
      ("outcome", outcomeJson outcome)] ++
      optional "saved" (if saved = [] then none else some (array (saved.map string))))
  | .other (.offerPending offer) =>
  object [("type", text "offer_pending"), ("offer", offerJson offer)]
  | .other (.transferStarted transfer) =>
    object [("type", text "transfer_started"), ("transfer", transferJson transfer)]
  | .other (.textReceived transfer sender message) =>
    object [("type", text "text_received"), ("transfer", number transfer), ("from", string sender),
      ("text", string message)]

def eventLen (event : Event Told) : ℕ := len (encode event)

end Encode

def maxPathBytes : ℕ := 4096

/-- The engine's own messages are short. The longest names a directory. -/
def Brief (e : ErrorInfo) : Prop := len e.message.toList ≤ maxPathBytes + 64

inductive Built (offer : Offer) : Event Told → Prop
  | pending (id : UInt64) : Built offer (.other (.offerPending (pendingView id.toNat offer)))
  | started (id : UInt64) : Built offer (.other (.transferStarted
      ((Begin.ofFiles .incoming offer.protocol offer.sender offer.files).view id.toNat)))
  -- Each file is saved at most once, under its name or a numbered one. A transfer that failed or
  -- was
  -- cancelled names the files it had saved by then, too.
  | finished (id : UInt64) (outcome : Outcome) (saved : List Str)
  (hbrief : ∀ e, outcome = .failed e → Brief e)
    (hlength : saved.length ≤ offer.files.length)
    (hsaved : ∀ name ∈ saved, ∃ f ∈ offer.files, ∃ n, name = numbered f.name.val n) :
    Built offer (.transferFinished id outcome saved)
  | offered (id : UInt64) (text : Str) (htext : offer.text = some text) :
    Built offer (.other (.textReceived id.toNat offer.sender text))
  | received (id : UInt64) (raw : Str) :
    Built offer (.other (.textReceived id.toNat offer.sender (message maxMessageBytes raw)))

section Bounds

variable {c : Char} {s : Str} {n : ℕ}

theorem plain_of_shown (h : c = ' ' ∨ c = '\n' ∨ classify c = .keep ∨ classify c = .combining) :
    Plain c := by
  by_contra hplain
  obtain ⟨hlt, hbreak⟩ := not_or.mp hplain
  rcases h with rfl | h | h
  · exact absurd hlt (by decide)
  · exact hbreak h
  · -- a control character is dropped, or is a space or a line break
    have hclass : classify c = .newline ∨ classify c = .space ∨ classify c = .drop := by
      unfold classify
      dsimp only
      by_cases hnewline : c.toNat = 0x0A ∨ c.toNat = 0x0D ∨ c.toNat = 0x2028 ∨ c.toNat = 0x2029 ∨
        c.toNat = 0x85
      · exact Or.inl (if_pos hnewline)
      · rw [if_neg hnewline]
        by_cases htab : c.toNat = 0x09
        · exact Or.inr (Or.inl (if_pos htab))
        · rw [if_neg htab]
          exact Or.inr (Or.inr (if_pos (Or.inl (by omega))))
    rcases hclass with hc | hc | hc <;> simp [hc] at h

theorem len_string_safe (h : Safe s) : len (string s) ≤ 402 := by
  have hplain : ∀ c ∈ s, Plain c := by
    intro c hc
    refine plain_of_shown ?_
    rcases h.shown c hc with h | h
    · exact Or.inl h
    · exact Or.inr (Or.inr h)
  have hbrief : len s ≤ 200 := h.short
  have := len_string_le_of_plain hplain
  omega

theorem len_string_short (h : s.length ≤ 64) : len (string s) ≤ 1538 := by
  have := len_le_of_length h
  have := len_string_le s
  omega

theorem len_number_of_lt (h : n < 2 ^ 64) : len (number n) ≤ 20 :=
  len_number_le (by decide) (h.trans (by decide))

theorem len_bool_le (b : Bool) : len (bool b) ≤ 5 := by
  cases b <;> decide

theorem len_fileJson_le {f : FileView} (hname : Safe f.name) (hsize : f.size < 2 ^ 64) :
    len (fileJson f) ≤ 470 := by
  refine (len_object_le (cost_cons_le (by decide) (len_string_safe hname)
    (cost_cons_le (by decide) (len_number_of_lt hsize) cost_nil_le))).trans ?_
  decide

theorem len_errorJson_le {e : ErrorInfo} (h : Brief e) : len (errorJson e) ≤ 26000 := by
  have hcode : len (text (codeName e.code)) ≤ 20 := by cases e.code <;> decide
  have hbrief : len e.message.toList ≤ 4160 := h
  have hmessage : len (text e.message) ≤ 24962 := by
    have := len_string_le e.message.toList
    unfold text
    omega
  refine (len_object_le (cost_cons_le (by decide) hcode
    (cost_cons_le (by decide) hmessage cost_nil_le))).trans ?_
  decide

theorem len_outcomeJson_le {outcome : Outcome} (h : ∀ e, outcome = .failed e → Brief e) :
    len (outcomeJson outcome) ≤ 26100 := by
  cases outcome with
  | done => decide
  | cancelled => decide
  | failed e =>
    refine (len_object_le (cost_cons_le (b := 20) (by decide) (by decide)
      (cost_cons_le (by decide) (len_errorJson_le (h e rfl)) cost_nil_le))).trans ?_
    decide

theorem len_string_message (raw : Str) : len (string (message maxMessageBytes raw)) ≤ 131074 := by
  have hlen : len (message maxMessageBytes raw) ≤ 65536 := len_message_le _ _
  have hplain : ∀ c ∈ message maxMessageBytes raw, Plain c := fun c hc =>
    plain_of_shown ((message_lines _ raw).shown c hc)
  have := len_string_le_of_plain hplain
  omega

structure Capped (offer : Offer) : Prop where
  sender : offer.sender.length ≤ 64
  model : ∀ m ∈ offer.model, m.length ≤ 64
  files : offer.files.length ≤ 500
  size : ∀ f ∈ offer.files, f.size < 2 ^ 64
  total : offer.totalBytes < 2 ^ 64
  pin : ∀ p ∈ offer.pin, p.length ≤ 64
  text : ∀ t ∈ offer.text, ∃ raw, t = message maxMessageBytes raw

theorem length_checkSender_le (raw : Str) : (checkSender raw).length ≤ 64 := by
  unfold checkSender
  dsimp only
  split_ifs
  · decide
  · exact (display_lines raw (by decide)).2.2.2

theorem capped_of_validate {raw : RawOffer} {offer : Offer} (h : validate raw = .ok offer) :
    Capped offer := by
  obtain ⟨hacc, rfl⟩ := validate_eq_ok.mp h
  have hmax : (8 * 1024 ^ 3 : ℤ) < 2 ^ 64 := by decide
  have hsize : ∀ f ∈ raw.files, f.size.toNat < 2 ^ 64 := by
    intro f hf
    obtain ⟨hnonneg, hle⟩ := hacc.sizes f hf
    omega
  refine ⟨length_checkSender_le _, ?_, ?_, ?_, ?_,
    fun p hp => (hacc.pin p hp).2.1.trans (by decide), ?_⟩
  · intro m hm
    obtain ⟨hm, -⟩ := Option.filter_eq_some_iff.mp hm
    obtain ⟨model, -, rfl⟩ := Option.map_eq_some_iff.mp hm
    exact (display_lines model (by decide)).2.2.2
  · change (raw.files.map checked).length ≤ 500
    rw [List.length_map]
    exact hacc.files
  · intro f hf
    obtain ⟨file, hfile, rfl⟩ := List.mem_map.mp hf
    exact hsize file hfile
  · have htotal := (total_iff fun f hf => (hacc.sizes f hf).1).mpr hacc.total
    rw [Nat.zero_add] at htotal
    exact htotal.trans_lt (by decide)
  · intro t ht
    obtain ⟨ht, -⟩ := Option.filter_eq_some_iff.mp ht
    obtain ⟨raw, -, rfl⟩ := Option.map_eq_some_iff.mp ht
    exact ⟨raw, rfl⟩

theorem len_files_le {offer : Offer} (h : Capped offer) {files : List FileView}
    (hfiles : ∀ v ∈ files, ∃ f ∈ offer.files, v = ⟨f.name.val, f.size⟩)
    (hlength : files.length ≤ maxListedFiles) : len (array (files.map fileJson)) ≤ 23552 := by
  refine (len_array_le (b := 470) (n := maxListedFiles) (fun t ht => ?_) ?_).trans (by decide)
  · obtain ⟨v, hv, rfl⟩ := List.mem_map.mp ht
    obtain ⟨f, hf, rfl⟩ := hfiles v hv
    exact len_fileJson_le f.name.safe (h.size f hf)
  · rwa [List.length_map]

theorem len_offerJson_le {offer : Offer} (h : Capped offer) (id : UInt64) :
    len (offerJson (pendingView id.toNat offer)) ≤ 32768 := by
  have hmodel : ∀ v ∈ offer.model.map string, len v ≤ 1538 := by
    intro v hv
    obtain ⟨m, hm, rfl⟩ := Option.map_eq_some_iff.mp hv
    exact len_string_short (h.model m hm)
  have hpin : ∀ v ∈ offer.pin.map string, len v ≤ 1538 := by
    intro v hv
    obtain ⟨p, hp, rfl⟩ := Option.map_eq_some_iff.mp hv
    exact len_string_short (h.pin p hp)
  have hprotocol : len (text (protocolName offer.protocol)) ≤ 20 := by
    cases offer.protocol <;> decide
  have hcount : offer.files.length < 2 ^ 64 := h.files.trans_lt (by decide)
  have hfiles : len (array ((pendingView id.toNat offer).files.map fileJson)) ≤ 23552 := by
    refine len_files_le h (fun v hv => ?_) ?_
    · obtain ⟨f, hf, rfl⟩ := List.mem_map.mp hv
      exact ⟨f, List.mem_of_mem_take hf, rfl⟩
    · rw [pendingView, List.length_map]
      exact List.length_take_le _ _
  have hmore : (pendingView id.toNat offer).moreFiles < 2 ^ 64 := (Nat.sub_le _ _).trans_lt hcount
  have hhead := cost_cons_le (k := "id") (by decide) (len_number_of_lt id.toNat_lt)
    (cost_cons_le (k := "protocol") (by decide) hprotocol
      (cost_cons_le (k := "sender") (by decide) (len_string_short h.sender) cost_nil_le))
  have hcounts := cost_cons_le (k := "files") (by decide) hfiles
    (cost_cons_le (k := "more_files") (by decide) (len_number_of_lt hmore)
      (cost_cons_le (k := "file_count") (by decide) (len_number_of_lt hcount)
        (cost_cons_le (k := "total_bytes") (by decide) (len_number_of_lt h.total)
          (cost_cons_le (k := "has_text") (by decide) (len_bool_le offer.text.isSome)
            cost_nil_le))))
  have htail :=
    cost_cons_le (k := "expires_in") (by decide) (len_number_of_lt (n := offerTimeout) (by decide))
    cost_nil_le
  refine (len_object_le (cost_append_le hhead (cost_append_le (cost_optional_le (by decide) hmodel)
    (cost_append_le hcounts (cost_append_le (cost_optional_le (by decide) hpin) htail))))).trans ?_
  decide

theorem foldl_saturatingAdd_lt (files : List OfferFile) {total : ℕ} (h : total < 2 ^ 64) :
    files.foldl (fun acc f => saturatingAdd acc f.size) total < 2 ^ 64 := by
  induction files generalizing total with
  | nil => exact h
  | cons f files ih =>
    refine ih ?_
    change min (total + f.size) (2 ^ 64 - 1) < 2 ^ 64
    omega

theorem len_transferJson_le {offer : Offer} (h : Capped offer) (id : UInt64) :
    len
    (transferJson ((Begin.ofFiles .incoming offer.protocol offer.sender offer.files).view
      id.toNat)) ≤ 32768 := by
  have hprotocol : len (text (protocolName offer.protocol)) ≤ 20 := by
    cases offer.protocol <;> decide
  have hcount : (offer.files.map fun f => (⟨f.name.val, f.size⟩ : FileView)).length < 2 ^ 64 := by
    rw [List.length_map]
    exact h.files.trans_lt (by decide)
  have hfiles : len (array (((offer.files.map fun f => (⟨f.name.val, f.size⟩ : FileView)).take
      maxListedFiles).map fileJson)) ≤ 23552 := by
    refine len_files_le h (fun v hv => ?_) (List.length_take_le _ _)
    obtain ⟨f, hf, rfl⟩ := List.mem_map.mp (List.mem_of_mem_take hv)
    exact ⟨f, hf, rfl⟩
  have hdirection : len (text (directionName .incoming)) ≤ 20 := by decide
  have htotal := foldl_saturatingAdd_lt offer.files (Nat.two_pow_pos 64)
  refine (len_object_le (cost_cons_le (by decide) (len_number_of_lt id.toNat_lt)
    (cost_cons_le (by decide) hdirection (cost_cons_le (by decide) hprotocol
      (cost_cons_le (by decide) (len_string_short h.sender) (cost_cons_le (by decide) hfiles
        (cost_cons_le (by decide) (len_number_of_lt hcount)
          (cost_cons_le (by decide) (len_number_of_lt htotal) cost_nil_le)))))))).trans ?_
  decide

theorem len_saved_le {offer : Offer} (h : Capped offer) {saved : List Str}
    (hlength : saved.length ≤ offer.files.length)
    (hsaved : ∀ name ∈ saved, ∃ f ∈ offer.files, ∃ n, name = numbered f.name.val n) :
    len (array (saved.map string)) ≤ 201502 := by
  refine (len_array_le (b := 402) (n := 500) (fun t ht => ?_) ?_).trans (by decide)
  · obtain ⟨name, hname, rfl⟩ := List.mem_map.mp ht
    obtain ⟨f, -, n, rfl⟩ := hsaved name hname
    exact len_string_safe (Name.safe_numbered f.name.safe n)
  · rw [List.length_map]
    exact hlength.trans h.files

theorem eventLen_finished_le {id : UInt64} {outcome : Outcome} {saved : List Str} {b : ℕ}
    (houtcome : len (outcomeJson outcome) ≤ b) (hsaved : len (array (saved.map string)) ≤ 201502) :
    eventLen (.transferFinished id outcome saved) ≤ 201652 + b := by
  have hoptional : ∀ v ∈ (if saved = [] then none else some (array (saved.map string))),
      len v ≤ 201502 := by
    intro v hv
    split_ifs at hv
    · cases hv
    · exact Option.some.inj hv ▸ hsaved
  refine (len_object_le (cost_append_le (cost_cons_le (b := 20) (by decide) (by decide)
    (cost_cons_le (by decide) (len_number_of_lt id.toNat_lt)
      (cost_cons_le (by decide) houtcome cost_nil_le)))
      (cost_optional_le (by decide) hoptional))).trans ?_
  omega

theorem eventLen_text_le {offer : Offer} (h : Capped offer) (id : UInt64) (raw : Str) :
    eventLen (.other (.textReceived id.toNat offer.sender (message maxMessageBytes raw))) ≤
    132768 := by
  refine (len_object_le (cost_cons_le (b := 20) (by decide) (by decide)
    (cost_cons_le (by decide) (len_number_of_lt id.toNat_lt)
      (cost_cons_le (by decide) (len_string_short h.sender)
      (cost_cons_le (by decide) (len_string_message raw) cost_nil_le))))).trans ?_
  decide

end Bounds

/-- Every event that is built from a checked offer is within the limit. -/
theorem eventLen_le {offer : Offer} (h : Capped offer) {event : Event Told}
    (hb : Built offer event) : eventLen event ≤ maxEventBytes := by
  cases hb with
  | pending id =>
    refine (len_object_le (cost_cons_le (b := 20) (by decide) (by decide)
      (cost_cons_le (by decide) (len_offerJson_le h id) cost_nil_le))).trans ?_
    decide
  | started id =>
    refine (len_object_le (cost_cons_le (b := 20) (by decide) (by decide)
      (cost_cons_le (by decide) (len_transferJson_le h id) cost_nil_le))).trans ?_
    decide
  | finished id outcome saved hbrief hlength hsaved =>
    have houtcome : len (outcomeJson outcome) ≤ 26100 := len_outcomeJson_le hbrief
    exact (eventLen_finished_le houtcome (len_saved_le h hlength hsaved)).trans (by decide)
  | offered id text htext =>
    obtain ⟨raw, rfl⟩ := h.text text htext
    exact (eventLen_text_le h id raw).trans (by decide)
  | received id raw => exact (eventLen_text_le h id raw).trans (by decide)

/-- So the gate takes it as it is: none is replaced, and none dropped. -/
theorem fit_built (raw : RawOffer) (offer : Offer) (hvalid : validate raw = .ok offer)
    (event : Event Told) (hb : Built offer event) :
    eventLen event ≤ maxEventBytes ∧ fit eventLen event = some (event, eventLen event) := by
  have hle := eventLen_le (capped_of_validate hvalid) hb
  refine ⟨hle, ?_⟩
  rw [fit, encodedLen, if_pos hle]

def quoted : RawOffer where
  protocol := .localSend
  sender := "Eve".toList
  files := [⟨"\"a\"".toList, 3, none, none⟩, ⟨"b\\c".toList, 0, none, none⟩]

/-- The end of a transfer that failed at its second file. -/
def failedHalfway (offer : Offer) : Event Told :=
  .transferFinished 7 (.failed ⟨.storage, "The file could not be saved."⟩)
    ((offer.files.take 1).map fun f => numbered f.name.val 2)

theorem fit_built_quoted : ∃ offer, validate quoted = .ok offer ∧ offer.files.length = 2 ∧
    fit eventLen (failedHalfway offer) =
    some (failedHalfway offer, eventLen (failedHalfway offer)) := by
  have hok : Acceptable quoted := by
    refine ⟨by decide, ?_, by decide, nofun, ?_, nofun, Or.inl nofun⟩
    · simp [quoted]
    · simp [quoted, DigestOk]
  have hvalid : validate quoted = .ok (clean quoted) := validate_eq_ok.mpr ⟨hok, rfl⟩
  have hbuilt : Built (clean quoted) (failedHalfway (clean quoted)) := by
    apply Built.finished
    · rintro e ⟨⟩
      unfold Brief
      decide
    · rw [List.length_map]
      exact List.length_take_le' _ _
    · intro name hname
      obtain ⟨f, hf, rfl⟩ := List.mem_map.mp hname
      exact ⟨f, List.mem_of_mem_take hf, 2, rfl⟩
  exact ⟨clean quoted, hvalid, rfl, (fit_built quoted (clean quoted) hvalid _ hbuilt).2⟩

end Sukkula.Hub
