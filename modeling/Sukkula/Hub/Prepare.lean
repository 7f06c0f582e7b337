import Sukkula.Library.Words
import Sukkula.QuickShare.Send

/-! # What a send names

The hub checks everything that a `send` names before an adapter sees it: how many
things there are, that each file is a regular one with an absolute path, and how
large they are, alone and together. The name that peers are told is a safe one,
and the type is guessed from it.
-/

namespace Sukkula.Hub

open Str
open LocalSend (ErrorInfo)
open Name (sanitize maxNameBytes)
open Offer (maxFileBytes maxFilesPerOffer maxMessageBytes maxOfferBytes)
open QuickShare (Outgoing OutgoingFile)
open QuickShare.Send (Metadata)

inductive SendItem
  | text (text : Str)
  | file (path : Str)
  deriving DecidableEq, Repr

/-- The types that receivers care about, by extension. -/
def mimeTypes : List (Str × Str) :=
  [("jpg".toList, "image/jpeg".toList), ("jpeg".toList, "image/jpeg".toList),
    ("png".toList, "image/png".toList), ("gif".toList, "image/gif".toList),
    ("webp".toList, "image/webp".toList), ("heic".toList, "image/heic".toList),
    ("mp4".toList, "video/mp4".toList), ("webm".toList, "video/webm".toList),
    ("mkv".toList, "video/x-matroska".toList), ("mp3".toList, "audio/mpeg".toList),
    ("ogg".toList, "audio/ogg".toList), ("oga".toList, "audio/ogg".toList),
    ("opus".toList, "audio/opus".toList), ("m4a".toList, "audio/mp4".toList),
    ("flac".toList, "audio/flac".toList), ("pdf".toList, "application/pdf".toList),
    ("zip".toList, "application/zip".toList), ("txt".toList, "text/plain".toList),
    ("vcf".toList, "text/vcard".toList),
    ("apk".toList, "application/vnd.android.package-archive".toList)]

def guessMime (name : Str) : Option Str :=
  if '.' ∈ name then mimeTypes.lookup (toAsciiLowercase (name.rtakeWhile (· ≠ '.')))
  else none

/-- `Path::file_name` of an absolute path: the last component that is no `.`, unless it is `..`. -/
def fileName (path : Str) : Option Str :=
  match ((path.splitOn '/').filter fun c => c ≠ [] ∧ c ≠ ['.']).getLast? with
  | none => none
  | some c => if c = ['.', '.'] then none else some c

def outgoing (name : Str) (size : ℕ) : OutgoingFile := ⟨name, size, guessMime name⟩

section Prepare

-- What the file system says of a path, if it can be read.
variable (disk : Str → Option Metadata)

def checkFile (path : Str) : Except ErrorInfo OutgoingFile := do
  ensure (path.head? = some '/' ∧ '\x00' ∉ path) ⟨.badFile, "the path is not absolute"⟩
  let found ← okOr ⟨.badFile, "the file cannot be read"⟩ (disk path)
  ensure found.isFile ⟨.badFile, "not a regular file"⟩
  ensure (found.len ≤ maxFileBytes) ⟨.tooLarge, "the file is too large"⟩
  return outgoing (sanitize ((fileName path).getD [])) found.len

/-- The loop of `prepare`, with the size of the files so far. -/
def prepareFrom : ℕ → List SendItem → Except ErrorInfo (List Outgoing)
  | _, [] => .ok []
  | total, .text text :: items => do
    ensure (text.len ≤ maxMessageBytes) ⟨.tooLarge, "the text is too long"⟩
    ensure (text ≠ []) ⟨.badCommand, "empty text"⟩
    let rest ← prepareFrom total items
    return .text text :: rest
  | total, .file path :: items => do
    let file ← checkFile disk path
    ensure (total + file.size ≤ maxOfferBytes) ⟨.tooLarge, "the files are too large together"⟩
    let rest ← prepareFrom (total + file.size) items
    return .file file :: rest

def prepare (items : List SendItem) : Except ErrorInfo (List Outgoing) := do
  ensure (items ≠ []) ⟨.badCommand, "nothing to send"⟩
  ensure (items.length ≤ maxFilesPerOffer) ⟨.tooLarge, "too many files"⟩
  prepareFrom disk 0 items

end Prepare

variable {disk : Str → Option Metadata} {total : ℕ} {items : List SendItem} {out : List Outgoing}

def maxGuessedBytes : ℕ := 39

theorem len_guessMime {name mime : Str} (h : guessMime name = some mime) :
    mime.len ≤ maxGuessedBytes := by
  have hall : ∀ e ∈ mimeTypes, e.2.len ≤ maxGuessedBytes := by decide
  unfold guessMime at h
  split_ifs at h
  exact hall _ (Assoc.mem_of_lookup h)

def Checked : Outgoing → Prop
  | .text t => 0 < t.length ∧ t.len ≤ maxMessageBytes
  | .file f => Name.Safe f.name ∧ f.size ≤ maxFileBytes ∧
      ∀ mime ∈ f.mime, mime.len ≤ maxGuessedBytes

theorem checked_outgoing {name : Str} {size : ℕ} (hname : Name.Safe name)
    (hsize : size ≤ maxFileBytes) : Checked (.file (outgoing name size)) :=
  ⟨hname, hsize, fun _ hm => len_guessMime hm⟩

theorem checked_checkFile {path : Str} {file : OutgoingFile}
    (h : checkFile disk path = .ok file) : Checked (.file file) := by
  obtain ⟨_, -, h⟩ := bind_eq_ok.mp h
  obtain ⟨found, -, h⟩ := bind_eq_ok.mp h
  obtain ⟨_, -, h⟩ := bind_eq_ok.mp h
  obtain ⟨_, hlen, h⟩ := bind_eq_ok.mp h
  rw [← Except.ok.inj h]
  exact checked_outgoing (Name.safe_sanitize _) (ensure_eq_ok.mp hlen)

theorem checked_prepareFrom (h : prepareFrom disk total items = .ok out) :
    out.length = items.length ∧ ∀ o ∈ out, Checked o := by
  induction items generalizing total out with
  | nil =>
    obtain rfl := Except.ok.inj h
    simp
  | cons item items ih =>
    cases item with
    | text text =>
      obtain ⟨⟨⟩, hlen, h⟩ := bind_eq_ok.mp h
      obtain ⟨⟨⟩, hne, h⟩ := bind_eq_ok.mp h
      obtain ⟨rest, hrest, h⟩ := bind_eq_ok.mp h
      obtain rfl := Except.ok.inj h
      obtain ⟨hcount, hall⟩ := ih hrest
      have htext : Checked (.text text) :=
        ⟨List.length_pos_of_ne_nil (ensure_eq_ok.mp hne), ensure_eq_ok.mp hlen⟩
      exact ⟨by simp [hcount], List.forall_mem_cons.mpr ⟨htext, hall⟩⟩
    | file path =>
      obtain ⟨file, hfile, h⟩ := bind_eq_ok.mp h
      obtain ⟨⟨⟩, -, h⟩ := bind_eq_ok.mp h
      obtain ⟨rest, hrest, h⟩ := bind_eq_ok.mp h
      obtain rfl := Except.ok.inj h
      obtain ⟨hcount, hall⟩ := ih hrest
      exact ⟨by simp [hcount], List.forall_mem_cons.mpr ⟨checked_checkFile hfile, hall⟩⟩

/-- What reaches an adapter: not too many things, each of them checked. -/
theorem checked_prepare (h : prepare disk items = .ok out) :
    out.length ≤ maxFilesPerOffer ∧ ∀ o ∈ out, Checked o := by
  obtain ⟨⟨⟩, -, h⟩ := bind_eq_ok.mp h
  obtain ⟨⟨⟩, hcount, h⟩ := bind_eq_ok.mp h
  obtain ⟨hlen, hall⟩ := checked_prepareFrom h
  exact ⟨hlen ▸ ensure_eq_ok.mp hcount, hall⟩

end Sukkula.Hub
