import Sukkula.Croc.Receive
import Sukkula.Library.Checks
import Sukkula.Offer.Validate

/-! # The sender's file list

`read_offer` checks the list of a croc sender and leaves its symbolic links out;
`raw_offer` says what is left of it in an offer. The files keep the number that
they have in the list, since a request names them by it. What comes out, here and
of the check of the offer, is one by one what the entries of the list say.
-/

namespace Sukkula.Croc

open Str Name
open Offer (RawFile RawOffer OfferFile checked)

def maxPathBytes : ℕ := 4096

/-- A file as the sender describes it; its hash is in base64. -/
structure FileWire where
  name : Str := []
  folder : Str := []
  hash : Option Str := none
  size : Int64 := 0
  symlink : Str := []
  deriving DecidableEq

/-- The sender's file list. No `Vec` is as long as `2 ^ 63`. -/
structure SenderWire where
  files : Option (List FileWire) := none
  text : Bool := false
  noCompress : Bool := false
  hash : Str := []
  length_lt : (files.getD []).length < 2 ^ 63

/-- One file of an offer, as the receiver acts on it. -/
structure Listed extends Offered where
  name : Str
  deriving DecidableEq

namespace Message

structure Offer where
  files : List Listed
  text : Bool
  compressed : Bool
  deriving DecidableEq

inductive OfferError | malformed | hash | empty | text
  deriving DecidableEq, Repr

end Message

open Message (OfferError)

section Read

variable (decode : Str → Option Bytes)

def decodeHash (hash : Str) : Option Bytes := (decode hash).filter (·.length = 8)

def readHash (size : ℕ) (hash : Option Str) : Except OfferError (Option Bytes) :=
  match size, hash with
  | 0, _ => .ok none
  | _ + 1, some h => (okOr .malformed (decodeHash decode h)).map some
  | _ + 1, none => .error .malformed

theorem FileWire.size_lt (f : FileWire) : f.size.toInt.toNat < 2 ^ 64 := by
  have := f.size.toInt_lt
  omega

def readFile (index : ℕ) (f : FileWire) : Except OfferError Listed := do
  ensure (0 ≤ f.size.toInt) .malformed
  let hash ← readHash decode f.size.toInt.toNat f.hash
  return ⟨⟨index, f.size.toInt.toNat, hash, f.size_lt⟩, f.name⟩

/-- The loop over the list, with the files so far. -/
def readFiles (index : ℕ) (files : List Listed) : List FileWire → Except OfferError (List Listed)
  | [] => .ok files
  | f :: fs => do
    ensure (len f.name ≤ maxPathBytes ∧ len f.folder ≤ maxPathBytes ∧ len f.symlink ≤ maxPathBytes)
      .malformed
    if f.symlink ≠ [] then readFiles (index + 1) files fs
    else do
      let file ← readFile decode index f
      readFiles (index + 1) (files ++ [file]) fs

def readOffer (wire : SenderWire) : Except OfferError Message.Offer := do
  ensure (wire.hash = [] ∨ wire.hash = "xxhash".toList) .hash
  let files ← readFiles decode 0 [] (wire.files.getD [])
  ensure (files ≠ []) .empty
  ensure (¬ (wire.text ∧ (files.length ≠ 1 ∨ files.head?.all (Offer.maxMessageBytes < ·.size))))
    .text
  return ⟨files, wire.text, !wire.noCompress⟩

end Read

/-- A file as it is offered. A text is offered as the one small file it is. -/
def rawFile (text : Bool) (f : Listed) : RawFile where
  name := if text then "text.txt".toList else f.name
  size := f.size
  mime := none
  sha256 := none

def rawOffer (offer : Message.Offer) : RawOffer where
  protocol := .croc
  sender := "croc".toList
  files := offer.files.map (rawFile offer.text)

/-- The entries of the list that are not links, with their numbers. -/
def SenderWire.entries (wire : SenderWire) : List (FileWire × ℕ) :=
  (wire.files.getD []).zipIdx.filter (·.1.symlink = [])

def listedOf (decode : Str → Option Bytes) (e : FileWire × ℕ) : Listed where
  index := e.2
  size := e.1.size.toInt.toNat
  hash := if e.1.size.toInt.toNat = 0 then none else e.1.hash.bind (decodeHash decode)
  size_lt := e.1.size_lt
  name := e.1.name

/-- What the user is asked about, of an entry. -/
def acceptedOf (text : Bool) (e : FileWire × ℕ) : OfferFile where
  name := .ofRaw (if text then "text.txt".toList else e.1.name)
  size := e.1.size.toInt.toNat
  mime := none
  sha256 := none

section Entries

variable {decode : Str → Option Bytes} {wire : SenderWire} {listed : Message.Offer}

theorem hash_of_readHash {size : ℕ} {hash : Option Str} {h : Option Bytes}
    (hr : readHash decode size hash = .ok h) :
    h = if size = 0 then none else hash.bind (decodeHash decode) := by
  match size, hash, hr with
  | 0, _, hr => exact (Except.ok.inj hr).symm
  | _ + 1, some s, hr =>
    obtain ⟨d, hd, rfl⟩ := map_eq_ok.mp hr
    exact (okOr_eq_ok.mp hd).symm

theorem listedOf_of_readFile {index : ℕ} {f : FileWire} {file : Listed}
    (h : readFile decode index f = .ok file) :
    file = listedOf decode (f, index) ∧ 0 ≤ f.size.toInt := by
  obtain ⟨_, hsize, h⟩ := bind_eq_ok.mp h
  obtain ⟨hash, hhash, h⟩ := bind_eq_ok.mp h
  obtain rfl := Except.ok.inj h
  obtain rfl := hash_of_readHash hhash
  exact ⟨rfl, ensure_eq_ok.mp hsize⟩

/-- The files are the entries of the list that are not links, none of a size below zero. -/
theorem readFiles_eq {fs : List FileWire} {index : ℕ} {files out : List Listed}
    (h : readFiles decode index files fs = .ok out) :
    out = files ++ ((fs.zipIdx index).filter (·.1.symlink = [])).map (listedOf decode) ∧
      ∀ e ∈ (fs.zipIdx index).filter (·.1.symlink = []), 0 ≤ e.1.size.toInt := by
  induction fs generalizing index files with
  | nil =>
    obtain rfl := Except.ok.inj h
    simp
  | cons f fs ih =>
    obtain ⟨_, -, h⟩ := bind_eq_ok.mp h
    by_cases hlink : f.symlink = []
    · simp only [hlink, ne_eq, not_true_eq_false, if_false] at h
      obtain ⟨file, hfile, h⟩ := bind_eq_ok.mp h
      obtain ⟨rfl, hsize⟩ := listedOf_of_readFile hfile
      obtain ⟨rfl, hall⟩ := ih h
      rw [List.zipIdx_cons, List.filter_cons_of_pos (by simpa using hlink)]
      exact ⟨by simp, List.forall_mem_cons.mpr ⟨hsize, hall⟩⟩
    · simp only [ne_eq, hlink, not_false_eq_true, if_true] at h
      rw [List.zipIdx_cons, List.filter_cons_of_neg (by simpa using hlink)]
      exact ih h

theorem readOffer_eq (h : readOffer decode wire = .ok listed) :
    listed.files = wire.entries.map (listedOf decode) ∧ listed.text = wire.text ∧
      (∀ e ∈ wire.entries, 0 ≤ e.1.size.toInt) ∧ (wire.text → wire.entries.length = 1) := by
  obtain ⟨_, -, h⟩ := bind_eq_ok.mp h
  obtain ⟨files, hfiles, h⟩ := bind_eq_ok.mp h
  obtain ⟨_, -, h⟩ := bind_eq_ok.mp h
  obtain ⟨_, htext, h⟩ := bind_eq_ok.mp h
  obtain rfl := Except.ok.inj h
  obtain ⟨hentries, hsizes⟩ : files = wire.entries.map (listedOf decode) ∧
      ∀ e ∈ wire.entries, 0 ≤ e.1.size.toInt := readFiles_eq hfiles
  refine ⟨hentries, rfl, hsizes, fun ht => ?_⟩
  have hone := ensure_eq_ok.mp htext
  push Not at hone
  have hlen := (hone ht).1
  rwa [hentries, List.length_map] at hlen

theorem accepted_eq {offer : Sukkula.Offer} (hread : readOffer decode wire = .ok listed)
    (hvalid : Offer.validate (rawOffer listed) = .ok offer) :
    offer.files = wire.entries.map (acceptedOf wire.text) := by
  obtain ⟨hfiles, htext, -⟩ := readOffer_eq hread
  obtain ⟨-, rfl⟩ := Offer.validate_eq_ok.mp hvalid
  change (listed.files.map (rawFile listed.text)).map checked = _
  rw [hfiles, htext, List.map_map, List.map_map]
  exact List.map_congr_left fun e _ => rfl

theorem mem_entries {e : FileWire × ℕ} (h : e ∈ wire.entries) :
    (wire.files.getD [])[e.2]? = some e.1 ∧ e.1.symlink = [] ∧ e.2 < 2 ^ 63 := by
  obtain ⟨hmem, hlink⟩ := List.mem_filter.mp h
  have hget := List.mem_zipIdx_iff_getElem?.mp hmem
  have hlt := (List.getElem?_eq_some_iff.mp hget).1
  exact ⟨hget, by simpa using hlink, hlt.trans wire.length_lt⟩

end Entries

end Sukkula.Croc
