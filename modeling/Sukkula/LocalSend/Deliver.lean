import Sukkula.Library.Transition
import Sukkula.LocalSend.Session

/-! # Sending over LocalSend

`deliver`, and `upload` with the loop that feeds the body of a request and waits
for its answer at the same time. The receiver answers whatever and whenever it
likes; each step is taken by the side that is ready. An answer that comes first
ends the upload, however much of the body was handed over by then.
-/

namespace Sukkula.LocalSend

open Transition

def ioChunkBytes : ℕ := 64 * 1024

def maxTokenBytes : ℕ := 128

def isTokenChar (c : Char) : Bool :=
  ('0' ≤ c && c ≤ '9') || ('a' ≤ c && c ≤ 'z') || ('A' ≤ c && c ≤ 'Z') || "-_.~".toList.contains c

/-- A session id or token from a peer, if it is short printable ASCII. -/
def wireToken (raw : Str) : Option Str :=
  if raw ≠ [] ∧ Str.len raw ≤ maxTokenBytes ∧ raw.all isTokenChar then some raw else none

/-- What a status from a receiver means for a send. -/
def statusError : ℕ → ErrorInfo
  | 401 => ⟨.refused, "the receiver requires a PIN"⟩
  | 403 => ⟨.refused, "the receiver declined"⟩
  | 409 => ⟨.refused, "the receiver is busy"⟩
  | 429 => ⟨.refused, "the receiver is refusing requests"⟩
  | 413 => ⟨.tooLarge, "the receiver refused the request as too large"⟩
  | _ => ⟨.network, "the receiver reported an error"⟩

def malformed (what : String) : ErrorInfo := ⟨.network, s!"the receiver sent a malformed {what}"⟩

/-- One thing to upload: a file of the size it had when it was chosen, or a text. -/
inductive Content
  | file (size : ℕ)
  | text (bytes : Bytes)
  deriving DecidableEq

def Content.len : Content → ℕ
  | .file size => size
  | .text bytes => bytes.length

/-- What an upload reads from: an opened file, as its reads see it, or a text. -/
inductive Source
  | file (data : Bytes) (size : ℕ)
  | text (bytes : Bytes)
  deriving DecidableEq

def Source.len : Source → ℕ
  | .file _ size => size
  | .text bytes => bytes.length

/-- What there is to hand over: the first `size` bytes of the file, or the text. -/
def Source.bytes : Source → Bytes
  | .file data size => data.take size
  | .text bytes => bytes

def Source.Of : Source → Content → Prop
  | .file _ size, .file size' => size = size'
  | .text bytes, .text bytes' => bytes = bytes'
  | _, _ => False

/-- An upload, as far as `feed` has come. -/
structure Feed where
  index : ℕ
  source : Source
  handed : Bytes
  chunk : Option Bytes
  fed : Bool
  deriving DecidableEq

/-- `feed` begins. -/
def Feed.new (index : ℕ) (source : Source) : Feed where
  index := index
  source := source
  handed := []
  chunk := match source with
    | .text bytes => if bytes = [] then none else some bytes
    | .file .. => none
  fed := false

structure Answered where
  index : ℕ
  source : Source
  handed : Bytes
  status : ℕ
  deriving DecidableEq

namespace Deliver

inductive Phase
  | opening
  | offering
  -- The rest of an answer that is not a yes is read.
  | refused (status : ℕ)
  | answering
  | next (index : ℕ)
  | reopening (index : ℕ) (content : Content)
  | sourcing (index : ℕ) (size : ℕ)
  | starting (index : ℕ) (source : Source)
  -- The loop of `upload`.
  | uploading (feed : Feed)
  | draining (status : ℕ) (index : ℕ)
  | ended (result : Except ErrorInfo Unit)
  deriving DecidableEq

inductive Act
  | cancel
  | fail (error : ErrorInfo)
  | connected
  | offered (status : ℕ)
  | drained
  | answered (session : Str) (files : List (Str × Str))
  -- The next item is looked at; whether the connection is closed by then.
  | next (closed : Bool)
  | sourced (isFile : Bool) (len : ℕ) (data : Bytes)
  | started
  -- `feed` reads so many bytes of the file.
  | read (n : ℕ)
  | sent
  -- `feed` has nothing to hand over.
  | nothing
  | respond (status : ℕ)
  | unconfirmed
  deriving DecidableEq

end Deliver

structure Deliver where
  contents : List Content
  phase : Deliver.Phase
  offered : Option ℕ
  -- The tokens of the items that the receiver wants.
  files : List (Str × Str)
  -- The uploads that were answered, for the record.
  uploads : List Answered
  deriving DecidableEq

def itemId (index : ℕ) : Str := (toString index).toList

namespace Deliver

def start (contents : List Content) : Deliver := ⟨contents, .opening, none, [], []⟩

def stop (d : Deliver) (e : ErrorInfo) : Deliver := { d with phase := .ended (.error e) }

/-- `open_source`, for an item whose connection is there. -/
def source (d : Deliver) (index : ℕ) : Content → Deliver
  | .file size => { d with phase := .sourcing index size }
  | .text bytes => { d with phase := .starting index (.text bytes) }

def next (d : Deliver) (index : ℕ) (closed : Bool) : Deliver :=
  match d.contents[index]? with
  | none => { d with phase := .ended (.ok ()) }
  | some content =>
    match d.files.lookup (itemId index) with
    -- Files the receiver did not ask for were declined there.
    | none => { d with phase := .next (index + 1) }
    | some token =>
      match wireToken token with
      | none => d.stop (malformed "file token")
      | some _ =>
        if closed then { d with phase := .reopening index content } else d.source index content

/-- A read of the file: at least a byte, unless it is at its end. -/
def read (d : Deliver) (u : Feed) (n : ℕ) : Option Deliver :=
  match u.source with
  | .text _ => none
  | .file data size =>
    let remaining := size - u.handed.length
    if u.fed ∨ u.chunk ≠ none ∨ remaining = 0 ∨ min remaining ioChunkBytes < n then none
    else if n = 0 then
      if data.length ≤ u.handed.length then
        some (d.stop ⟨.badFile, "the file got shorter while it was being sent"⟩)
      else none
    else if u.handed.length + n ≤ data.length then
      some { d with phase := .uploading { u with
        chunk := some ((data.drop u.handed.length).take n) } }
    else none

/-- A chunk found room; `feed` ends with the last one. -/
def sent (d : Deliver) (u : Feed) : Option Deliver :=
  match u.chunk with
  | none => none
  | some chunk =>
    let handed := u.handed ++ chunk
    let u := { u with handed := handed, chunk := none, fed := u.source.len ≤ handed.length }
    some { d with phase := .uploading u }

/-- One turn of the loop of `upload`. -/
def upload (d : Deliver) (u : Feed) : Act → Option Deliver
  | .read n => d.read u n
  | .sent => d.sent u
  | .nothing =>
    if u.fed = false ∧ u.chunk = none ∧ u.source.len = 0 then
      some { d with phase := .uploading { u with fed := true } }
    else none
  | .respond status =>
    some { d with
      phase := .draining status u.index
      uploads := d.uploads ++ [⟨u.index, u.source, u.handed, status⟩] }
  | .unconfirmed =>
    if u.fed then some (d.stop ⟨.network, "the receiver did not confirm the file"⟩) else none
  -- A read, a chunk that stalls, a closed connection, or no answer.
  | .fail e => some (d.stop e)
  | _ => none

def step (d : Deliver) (a : Act) : Option Deliver :=
  match d.phase, a with
  | .ended _, _ => none
  | _, .cancel => some (d.stop cancelled)
  | .opening, .connected => some { d with phase := .offering }
  | .opening, .fail e => some (d.stop e)
  | .offering, .offered status =>
    let d := { d with offered := some status }
    if status = 200 then some { d with phase := .answering }
    -- Accepted, nothing to upload: a message on its own.
    else if status = 204 then some { d with phase := .ended (.ok ()) }
    else some { d with phase := .refused status }
  | .offering, .fail e => some (d.stop e)
  | .refused status, .drained => some (d.stop (statusError status))
  | .answering, .answered session files =>
    match wireToken session with
    | none => some (d.stop (malformed "session id"))
    | some _ => some { d with files := files, phase := .next 0 }
  | .answering, .fail e => some (d.stop e)
  | .next index, .next closed => some (d.next index closed)
  | .reopening index content, .connected => some (d.source index content)
  | .reopening _ _, .fail e => some (d.stop e)
  | .sourcing index size, .sourced isFile len data =>
    if isFile ∧ len = size then some { d with phase := .starting index (.file data size) }
    else some (d.stop ⟨.badFile, "the file changed after it was chosen"⟩)
  | .sourcing _ _, .fail e => some (d.stop e)
  | .starting index source, .started => some { d with phase := .uploading (.new index source) }
  | .starting _ _, .fail e => some (d.stop e)
  | .uploading u, a => d.upload u a
  | .draining status index, .drained =>
    if status = 200 then some { d with phase := .next (index + 1) }
    else some (d.stop (statusError status))
  | _, _ => none

def result (d : Deliver) : Option (Except ErrorInfo Unit) :=
  match d.phase with
  | .ended result => some result
  | _ => none

/-- The item was uploaded once, whole, and its upload answered with a 200. -/
def Whole (d : Deliver) (index : ℕ) (content : Content) : Prop :=
  ∃ u, d.uploads.filter (·.index = index) = [u] ∧ u.source.Of content ∧ u.handed = u.source.bytes ∧
    u.handed.length = content.len ∧ u.status = 200

/-- Every item that the receiver gave a token for was. -/
def Delivered (d : Deliver) : Prop :=
  ∀ index content, d.contents[index]? = some content → d.files.lookup (itemId index) ≠ none →
    d.Whole index content

/-- The step is not a 200 for an upload that has more to hand over. -/
def Patient (d : Deliver) (a : Act) : Prop :=
  ∀ u, d.phase = .uploading u → a = .respond 200 → u.fed = true ∨ u.source.len = 0

end Deliver

theorem Source.length_bytes_le (s : Source) : s.bytes.length ≤ s.len := by
  cases s with
  | file data size => simp [bytes, len]
  | text bytes => exact le_rfl

theorem Source.Of.len_eq {s : Source} {c : Content} (h : s.Of c) : s.len = c.len := by
  cases s <;> cases c <;> simp_all [Source.Of, Source.len, Content.len]

/-- What was handed over is the beginning of what there is, and `feed` ends with all of it. -/
structure Feed.Ok (u : Feed) : Prop where
  handed : u.handed <+: u.source.bytes
  chunk : ∀ c ∈ u.chunk, u.handed ++ c <+: u.source.bytes
  fed : u.fed = true → u.source.len ≤ u.handed.length
  more : u.fed = false → u.source.len = 0 ∨ u.handed.length < u.source.len

theorem Feed.ok_new (index : ℕ) (source : Source) : (Feed.new index source).Ok := by
  refine ⟨List.nil_prefix, ?_, nofun, fun _ => ?_⟩
  · intro c hc
    cases source with
    | file data size => cases hc
    | text bytes =>
      simp only [Feed.new] at hc
      split_ifs at hc with hb
      · cases hc
      · cases hc
        exact List.prefix_rfl
  · exact Nat.eq_zero_or_pos source.len

theorem prefix_take_of_read {data handed : Bytes} {size n : ℕ} (h : handed <+: data.take size)
    (hn : handed.length + n ≤ size) :
    handed ++ (data.drop handed.length).take n <+: data.take size := by
  have hdata : handed = data.take handed.length :=
    List.prefix_iff_eq_take.mp (h.trans (List.take_prefix size data))
  have hsum : handed ++ (data.drop handed.length).take n = data.take (handed.length + n) := by
    rw [List.take_add, ← hdata]
  rw [hsum]
  exact List.take_prefix_take_left hn

namespace Deliver

variable {d d' : Deliver} {a : Act} {u : Feed} {index : ℕ} {content : Content} {acts : List Act}

/-- The answered uploads are of earlier items. -/
def Below (d : Deliver) (n : ℕ) : Prop := ∀ u ∈ d.uploads, u.index < n

/-- The earlier items that were asked for were answered with a 200. -/
def Done (d : Deliver) (n : ℕ) : Prop :=
  ∀ index < n, ∀ content, d.contents[index]? = some content → d.files.lookup (itemId index) ≠ none →
    ∃ u ∈ d.uploads, u.index = index ∧ u.status = 200

/-- The item is the next one, and the receiver wants it. -/
structure At (d : Deliver) (index : ℕ) (content : Content) : Prop where
  below : Below d index
  done : Done d index
  content : d.contents[index]? = some content
  asked : d.files.lookup (itemId index) ≠ none

def Phase.Fits (d : Deliver) : Phase → Prop
  | .opening | .offering | .refused _ | .answering => d.uploads = []
  | .next index => Below d index ∧ Done d index
  | .reopening index content => At d index content
  | .sourcing index size => At d index (.file size)
  | .starting index source => ∃ content, At d index content ∧ source.Of content
  | .uploading u => (∃ content, At d u.index content ∧ u.source.Of content) ∧ u.Ok
  | .draining status index => Below d (index + 1) ∧ Done d index ∧
      ∃ u ∈ d.uploads, u.index = index ∧ u.status = status
  | .ended (.ok ()) => d.offered = some 200 → ∀ n, Done d n
  | .ended (.error _) => True

structure Inv (d : Deliver) : Prop where
  sorted : (d.uploads.map Answered.index).Pairwise (· < ·)
  uploads : ∀ u ∈ d.uploads, (∃ content, d.contents[u.index]? = some content ∧
    u.source.Of content) ∧ d.files.lookup (itemId u.index) ≠ none ∧ u.handed <+: u.source.bytes
  fits : d.phase.Fits d

theorem inv_start (contents : List Content) : Inv (start contents) := ⟨.nil, nofun, rfl⟩

theorem Inv.phase (h : Inv d) {phase : Phase} (hfits : phase.Fits { d with phase }) :
    Inv { d with phase } :=
  ⟨h.sorted, h.uploads, hfits⟩

theorem Inv.stop (h : Inv d) (e : ErrorInfo) : Inv (d.stop e) := h.phase trivial

theorem Inv.source (h : Inv d) (hat : At d index content) : Inv (d.source index content) := by
  cases content with
  | file size => exact h.phase ⟨hat.below, hat.done, hat.content, hat.asked⟩
  | text bytes => exact h.phase ⟨.text bytes, ⟨hat.below, hat.done, hat.content, hat.asked⟩, rfl⟩

theorem Inv.next (h : Inv d) {closed : Bool} (hbelow : Below d index) (hdone : Done d index) :
    Inv (d.next index closed) := by
  unfold Deliver.next
  cases hcontent : d.contents[index]? with
  | none =>
    refine h.phase fun _ n i _ content hi hasked => ?_
    have hlt : i < index := by
      have hi' := (List.getElem?_eq_some_iff.mp hi).1
      have hn := List.getElem?_eq_none_iff.mp hcontent
      simp only at hi'
      omega
    exact hdone i hlt content hi hasked
  | some content =>
    simp only
    cases hasked : d.files.lookup (itemId index) with
    | none =>
      refine h.phase ⟨fun u hu => Nat.lt_succ_of_lt (hbelow u hu), fun i hi c hc ha => ?_⟩
      rcases Nat.lt_succ_iff_lt_or_eq.mp hi with hi | rfl
      · exact hdone i hi c hc ha
      · exact absurd hasked ha
    | some token =>
      have hat : At d index content := ⟨hbelow, hdone, hcontent, by simp [hasked]⟩
      simp only
      cases wireToken token with
      | none => exact h.stop _
      | some _ =>
        simp only
        split_ifs
        · exact h.phase ⟨hat.below, hat.done, hat.content, hat.asked⟩
        · exact h.source hat

theorem Inv.feed (h : Inv d) (hp : d.phase = .uploading u) {u' : Feed} (hindex : u'.index = u.index)
    (hsource : u'.source = u.source) (hok : u'.Ok) : Inv { d with phase := .uploading u' } := by
  have hfits := h.fits
  rw [hp] at hfits
  obtain ⟨⟨content, hat, hof⟩, -⟩ := hfits
  refine h.phase ⟨⟨content, ?_, hsource ▸ hof⟩, hok⟩
  rw [hindex]
  exact ⟨hat.below, hat.done, hat.content, hat.asked⟩

theorem Inv.ok (h : Inv d) (hp : d.phase = .uploading u) : u.Ok := by
  have hfits := h.fits
  rw [hp] at hfits
  exact hfits.2

theorem Inv.read (h : Inv d) (hp : d.phase = .uploading u) {n : ℕ} (hs : d.read u n = some d') :
    Inv d' := by
  have hok := h.ok hp
  unfold Deliver.read at hs
  cases hsource : u.source with
  | text bytes => simp [hsource] at hs
  | file data size =>
    simp only [hsource] at hs
    split_ifs at hs with hguard hzero hend hlen
    · exact Option.some.inj hs ▸ h.stop _
    · obtain rfl := Option.some.inj hs
      simp only [not_or, not_not, Bool.not_eq_true, Nat.not_lt] at hguard
      refine h.feed hp rfl hsource.symm ⟨hsource ▸ hok.handed, ?_, hsource ▸ hok.fed,
        hsource ▸ hok.more⟩
      rintro c ⟨⟩
      have hhanded := hok.handed
      rw [hsource] at hhanded
      have hle : u.handed.length + n ≤ size := by
        have := hguard.2.2
        omega
      exact prefix_take_of_read hhanded hle

theorem Inv.sent (h : Inv d) (hp : d.phase = .uploading u) (hs : d.sent u = some d') : Inv d' := by
  have hok := h.ok hp
  unfold Deliver.sent at hs
  cases hchunk : u.chunk with
  | none => simp [hchunk] at hs
  | some chunk =>
    simp only [hchunk] at hs
    obtain rfl := Option.some.inj hs
    refine h.feed hp rfl rfl ⟨hok.chunk chunk hchunk, nofun, ?_, ?_⟩
    · intro hfed
      exact of_decide_eq_true hfed
    · intro hfed
      exact Or.inr (Nat.not_le.mp (of_decide_eq_false hfed))

theorem Inv.respond (h : Inv d) (hp : d.phase = .uploading u) (status : ℕ) :
    Inv { d with
      phase := .draining status u.index
      uploads := d.uploads ++ [⟨u.index, u.source, u.handed, status⟩] } := by
  have hfits := h.fits
  rw [hp] at hfits
  obtain ⟨⟨content, hat, hof⟩, hok⟩ := hfits
  refine ⟨?_, ?_, ?_, ?_, ?_⟩
  · rw [List.map_append, List.pairwise_append]
    refine ⟨h.sorted, List.pairwise_singleton _ _, ?_⟩
    intro i hi j hj
    obtain ⟨v, hv, rfl⟩ := List.mem_map.mp hi
    obtain rfl := List.mem_singleton.mp hj
    exact hat.below v hv
  · intro v hv
    rcases List.mem_append.mp hv with hv | hv
    · exact h.uploads v hv
    · obtain rfl := List.mem_singleton.mp hv
      exact ⟨⟨content, hat.content, hof⟩, hat.asked, hok.handed⟩
  · intro v hv
    rcases List.mem_append.mp hv with hv | hv
    · exact Nat.lt_succ_of_lt (hat.below v hv)
    · obtain rfl := List.mem_singleton.mp hv
      exact Nat.lt_succ_self _
  · intro i hi c hc hasked
    obtain ⟨v, hv, hindex, hstatus⟩ := hat.done i hi c hc hasked
    exact ⟨v, List.mem_append_left _ hv, hindex, hstatus⟩
  · exact ⟨_, List.mem_append_right _ (List.mem_singleton_self _), rfl, rfl⟩

theorem Inv.upload (h : Inv d) (hp : d.phase = .uploading u) (hs : d.upload u a = some d') :
    Inv d' := by
  cases a with
  | read n => exact h.read hp hs
  | sent => exact h.sent hp hs
  | nothing =>
    simp only [Deliver.upload] at hs
    split_ifs at hs with hempty
    obtain rfl := Option.some.inj hs
    have hok := h.ok hp
    refine h.feed hp rfl rfl ⟨hok.handed, hok.chunk, fun _ => ?_, nofun⟩
    rw [hempty.2.2]
    exact Nat.zero_le _
  | respond status => exact Option.some.inj hs ▸ h.respond hp status
  | unconfirmed =>
    simp only [Deliver.upload] at hs
    split_ifs at hs
    exact Option.some.inj hs ▸ h.stop _
  | fail e => exact Option.some.inj hs ▸ h.stop _
  | cancel | connected | offered | drained | answered | next | sourced | started => cases hs

theorem Inv.step (h : Inv d) (hs : step d a = some d') : Inv d' := by
  have hfits := h.fits
  unfold Deliver.step at hs
  split at hs
  · cases hs
  · exact Option.some.inj hs ▸ h.stop _
  · rw [‹d.phase = _›] at hfits
    exact Option.some.inj hs ▸ h.phase hfits
  · exact Option.some.inj hs ▸ h.stop _
  · rw [‹d.phase = _›] at hfits
    have hnil : d.uploads = [] := hfits
    simp only at hs
    split_ifs at hs with h200 h204
    · exact Option.some.inj hs ▸ ⟨h.sorted, h.uploads, hfits⟩
    · obtain rfl := Option.some.inj hs
      refine ⟨h.sorted, h.uploads, fun hoffered => ?_⟩
      rw [h204] at hoffered
      cases hoffered
    · exact Option.some.inj hs ▸ ⟨h.sorted, h.uploads, hfits⟩
  · exact Option.some.inj hs ▸ h.stop _
  · exact Option.some.inj hs ▸ h.stop _
  · rw [‹d.phase = _›] at hfits
    have hnil : d.uploads = [] := hfits
    split at hs
    · exact Option.some.inj hs ▸ h.stop _
    · obtain rfl := Option.some.inj hs
      refine ⟨h.sorted, by simp [hnil], by simp [Below, hnil], ?_⟩
      exact fun i hi => absurd hi (Nat.not_lt_zero i)
  · exact Option.some.inj hs ▸ h.stop _
  · rw [‹d.phase = _›] at hfits
    exact Option.some.inj hs ▸ h.next hfits.1 hfits.2
  · rw [‹d.phase = _›] at hfits
    exact Option.some.inj hs ▸ h.source hfits
  · exact Option.some.inj hs ▸ h.stop _
  · rw [‹d.phase = _›] at hfits
    split_ifs at hs
    · obtain rfl := Option.some.inj hs
      exact h.phase ⟨_, ⟨hfits.below, hfits.done, hfits.content, hfits.asked⟩, rfl⟩
    · exact Option.some.inj hs ▸ h.stop _
  · exact Option.some.inj hs ▸ h.stop _
  · rw [‹d.phase = _›] at hfits
    obtain ⟨content, hat, hof⟩ := hfits
    obtain rfl := Option.some.inj hs
    exact h.phase ⟨⟨content, ⟨hat.below, hat.done, hat.content, hat.asked⟩, hof⟩, Feed.ok_new _ _⟩
  · exact Option.some.inj hs ▸ h.stop _
  · exact h.upload ‹_› hs
  · rw [‹d.phase = _›] at hfits
    obtain ⟨hbelow, hdone, v, hv, hindex, hstatus⟩ := hfits
    split_ifs at hs with h200
    · obtain rfl := Option.some.inj hs
      refine h.phase ⟨hbelow, fun i hi c hc hasked => ?_⟩
      rcases Nat.lt_succ_iff_lt_or_eq.mp hi with hi | rfl
      · exact hdone i hi c hc hasked
      · exact ⟨v, hv, hindex, hstatus.trans h200⟩
    · exact Option.some.inj hs ▸ h.stop _
  · cases hs

theorem inv_run {contents : List Content} (h : exec step (start contents) acts = some d) : Inv d :=
  exec_invariant (fun _ _ _ => Inv.step) (inv_start contents) h

theorem uploads_of_upload (hs : d.upload u a = some d') : d'.uploads = d.uploads ∨
    ∃ status, a = .respond status ∧ d'.uploads =
    d.uploads ++ [⟨u.index, u.source, u.handed, status⟩] := by
  cases a with
  | respond status => exact Or.inr ⟨status, rfl, Option.some.inj hs ▸ rfl⟩
  | read n =>
    left
    simp only [upload, read] at hs
    split at hs
    · cases hs
    · split_ifs at hs <;> exact Option.some.inj hs ▸ rfl
  | sent =>
    left
    simp only [upload, sent] at hs
    split at hs
    · cases hs
    · exact Option.some.inj hs ▸ rfl
  | nothing | unconfirmed =>
    left
    simp only [upload] at hs
    split_ifs at hs
    exact Option.some.inj hs ▸ rfl
  | fail e => exact Or.inl (Option.some.inj hs ▸ rfl)
  | cancel | connected | offered | drained | answered | next | sourced | started => cases hs

theorem uploads_of_step (hs : step d a = some d') : d'.uploads = d.uploads ∨
    ∃ u status, d.phase = .uploading u ∧ a = .respond status ∧
      d'.uploads = d.uploads ++ [⟨u.index, u.source, u.handed, status⟩] := by
  unfold Deliver.step at hs
  split at hs
  · cases hs
  · exact Or.inl (Option.some.inj hs ▸ rfl)
  · exact Or.inl (Option.some.inj hs ▸ rfl)
  · exact Or.inl (Option.some.inj hs ▸ rfl)
  · simp only at hs
    split_ifs at hs <;> exact Or.inl (Option.some.inj hs ▸ rfl)
  · exact Or.inl (Option.some.inj hs ▸ rfl)
  · exact Or.inl (Option.some.inj hs ▸ rfl)
  · split at hs <;> exact Or.inl (Option.some.inj hs ▸ rfl)
  · exact Or.inl (Option.some.inj hs ▸ rfl)
  · obtain rfl := Option.some.inj hs
    left
    unfold next source stop
    repeat' split
    all_goals rfl
  · obtain rfl := Option.some.inj hs
    left
    unfold source
    split <;> rfl
  · exact Or.inl (Option.some.inj hs ▸ rfl)
  · split_ifs at hs <;> exact Or.inl (Option.some.inj hs ▸ rfl)
  · exact Or.inl (Option.some.inj hs ▸ rfl)
  · exact Or.inl (Option.some.inj hs ▸ rfl)
  · exact Or.inl (Option.some.inj hs ▸ rfl)
  · rcases uploads_of_upload hs with heq | ⟨status, ha, heq⟩
    · exact Or.inl heq
    · exact Or.inr ⟨_, status, ‹_›, ha, heq⟩
  · split_ifs at hs <;> exact Or.inl (Option.some.inj hs ▸ rfl)
  · cases hs

/-- An upload on the record that was answered with a 200 too early. -/
def Early (d : Deliver) : Prop := ∃ u ∈ d.uploads, u.status = 200 ∧ u.handed.length < u.source.len

theorem Early.step (h : Early d) (hs : step d a = some d') : Early d' := by
  obtain ⟨u, hu, hstatus, hlen⟩ := h
  rcases uploads_of_step hs with heq | ⟨_, _, -, -, heq⟩
  · exact ⟨u, heq ▸ hu, hstatus, hlen⟩
  · exact ⟨u, heq ▸ List.mem_append_left _ hu, hstatus, hlen⟩

theorem early_step (h : Inv d) (hd : ¬ Early d) (hs : step d a = some d') :
    Early d' ↔ ¬ Patient d a := by
  have hold : ∀ u ∈ d.uploads, ¬ (u.status = 200 ∧ u.handed.length < u.source.len) :=
    fun u hu hbad => hd ⟨u, hu, hbad⟩
  rcases uploads_of_step hs with heq | ⟨u, status, hp, rfl, heq⟩
  · have hpatient : Patient d a := by
      intro u hp ha
      subst ha
      unfold Deliver.step at hs
      rw [hp] at hs
      obtain rfl := Option.some.inj hs
      have hlen := congrArg List.length heq
      simp at hlen
    refine iff_of_false ?_ (not_not.mpr hpatient)
    rintro ⟨u, hu, hbad⟩
    exact hold u (heq ▸ hu) hbad
  · have hok := h.ok hp
    have hearly : Early d' ↔ status = 200 ∧ u.handed.length < u.source.len := by
      constructor
      · rintro ⟨v, hv, hbad⟩
        rw [heq, List.mem_append, List.mem_singleton] at hv
        rcases hv with hv | rfl
        · exact absurd hbad (hold v hv)
        · exact hbad
      · intro hbad
        exact ⟨⟨u.index, u.source, u.handed, status⟩, by simp [heq], hbad⟩
    rw [hearly]
    constructor
    · rintro ⟨rfl, hlt⟩ hpatient
      rcases hpatient u hp rfl with hfed | hzero
      · exact absurd (hok.fed hfed) (Nat.not_le.mpr hlt)
      · omega
    · intro hnot
      unfold Patient at hnot
      push Not at hnot
      obtain ⟨v, hv, ha, hfed, hlen⟩ := hnot
      obtain rfl : u = v := by simpa [hp] using hv
      obtain rfl : status = 200 := by simpa using ha
      refine ⟨rfl, ?_⟩
      rcases hok.more (by simpa using hfed) with hzero | hlt
      · exact absurd hzero hlen
      · exact hlt

theorem early_iff_not_along (h : Inv d) (hd : ¬ Early d) (hrun : exec step d acts = some d') :
    Early d' ↔ ¬ Along step Patient d acts := by
  induction acts generalizing d with
  | nil =>
    obtain rfl := Option.some.inj hrun
    exact iff_of_false hd (not_not.mpr trivial)
  | cons a acts ih =>
    obtain ⟨t, ht, hr⟩ := exec_cons_eq_some.mp hrun
    by_cases hpatient : Patient d a
    · have hgood : ¬ Early t := fun he => (early_step h hd ht).mp he hpatient
      rw [ih (h.step ht) hgood hr]
      constructor
      · rintro hnot ⟨-, hall⟩
        exact hnot (hall t ht)
      · intro hnot hall
        exact hnot (.cons hpatient ht hall)
    · refine iff_of_true ?_ fun hall => hpatient hall.1
      exact exec_invariant (fun _ _ _ => Early.step) ((early_step h hd ht).mpr hpatient) hr

theorem Inv.filter_eq (h : Inv d) {u : Answered} (hu : u ∈ d.uploads) :
    d.uploads.filter (·.index = u.index) = [u] := by
  obtain ⟨l₁, l₂, hl⟩ := List.append_of_mem hu
  have hsorted := h.sorted
  rw [hl, List.map_append, List.map_cons, List.pairwise_append, List.pairwise_cons] at hsorted
  obtain ⟨-, ⟨hafter, -⟩, hbefore⟩ := hsorted
  rw [hl, List.filter_append, List.filter_cons_of_pos (by simp)]
  have h₁ : l₁.filter (·.index = u.index) = [] := by
    refine List.filter_eq_nil_iff.mpr fun v hv => ?_
    have := hbefore v.index (List.mem_map_of_mem hv) u.index List.mem_cons_self
    simpa using this.ne
  have h₂ : l₂.filter (·.index = u.index) = [] := by
    refine List.filter_eq_nil_iff.mpr fun v hv => ?_
    have := hafter v.index (List.mem_map_of_mem hv)
    simpa using this.ne'
  rw [h₁, h₂, List.nil_append]

theorem phase_of_result {x : Except ErrorInfo Unit} (h : d.result = some x) :
    d.phase = .ended x := by
  unfold result at h
  split at h
  · rw [‹d.phase = _›, Option.some.inj h]
  · cases h

theorem delivered_iff_not_early (h : Inv d) (hok : d.result = some (.ok ()))
    (hoffer : d.offered = some 200) : d.Delivered ↔ ¬ Early d := by
  constructor
  · rintro hdelivered ⟨u, hu, -, hlt⟩
    obtain ⟨⟨content, hcontent, hof⟩, hasked, -⟩ := h.uploads u hu
    obtain ⟨v, hv, -, -, hlen, -⟩ := hdelivered u.index content hcontent hasked
    obtain rfl : u = v := List.singleton_inj.mp ((h.filter_eq hu).symm.trans hv)
    rw [hlen, hof.len_eq] at hlt
    exact Nat.lt_irrefl _ hlt
  · intro hnot index content hcontent hasked
    have hfits := h.fits
    rw [phase_of_result hok] at hfits
    obtain ⟨u, hu, rfl, hstatus⟩ :=
      hfits hoffer (index + 1) index (Nat.lt_succ_self _) content hcontent hasked
    obtain ⟨⟨content', hcontent', hof⟩, -, hpre⟩ := h.uploads u hu
    obtain rfl : content' = content := Option.some.inj (hcontent'.symm.trans hcontent)
    have hlen : u.source.len ≤ u.handed.length := by
      by_contra hlt
      exact hnot ⟨u, hu, hstatus, Nat.not_le.mp hlt⟩
    have hle := u.source.length_bytes_le
    refine ⟨u, h.filter_eq hu, hof, ?_, ?_, hstatus⟩
    · exact hpre.eq_of_length (Nat.le_antisymm hpre.length_le (hle.trans hlen))
    · rw [← hof.len_eq]
      exact Nat.le_antisymm (hpre.length_le.trans hle) hlen

/-- A send that ends well after a 200 to its offer has handed over every item that was asked for,
whole, exactly if no 200 came for an upload that had more to hand over. -/
theorem delivered_iff_patient (contents : List Content) (acts : List Act) (d : Deliver)
    (hrun : exec step (start contents) acts = some d) (hok : d.result = some (.ok ()))
    (hoffer : d.offered = some 200) :
    d.Delivered ↔ Along step Patient (start contents) acts := by
  have hstart : ¬ Early (start contents) := by
    rintro ⟨u, hu, -⟩
    cases hu
  rw [delivered_iff_not_early (inv_run hrun) hok hoffer,
    early_iff_not_along (inv_start contents) hstart hrun, not_not]

/-- A text of one byte is offered and asked for. -/
def asked : List Act :=
  [.connected, .offered 200, .answered ['s'] [(['0'], ['t'])], .next false, .started]

def confirmed : List Act := asked ++ [.sent, .respond 200, .drained, .next false]

theorem delivered_confirmed : ∃ d, exec step (start [.text [7]]) confirmed = some d ∧
    d.result = some (.ok ()) ∧ d.Delivered := by
  refine ⟨_, rfl, rfl, (delivered_iff_patient [.text [7]] confirmed _ rfl rfl rfl).mpr ?_⟩
  refine .cons nofun rfl <| .cons nofun rfl <| .cons nofun rfl <| .cons nofun rfl <|
    .cons nofun rfl <|
    .cons nofun rfl <| .cons ?_ rfl <| .cons nofun rfl <| .cons nofun rfl trivial
  rintro u ⟨⟩ -
  exact Or.inl rfl

/-- The receiver confirms it before a byte is handed over. -/
def hasty : List Act := asked ++ [.respond 200, .drained, .next false]

theorem hasty_not_delivered : ∃ d, exec step (start [.text [7]]) hasty = some d ∧
    d.result = some (.ok ()) ∧ d.offered = some 200 ∧ ¬ d.Delivered := by
  refine ⟨_, rfl, rfl, rfl, fun h => ?_⟩
  obtain ⟨u, hu, -, -, hlen, -⟩ := h 0 (.text [7]) rfl (by decide)
  obtain rfl : (⟨0, .text [7], [], 200⟩ : Answered) = u := List.singleton_inj.mp hu
  cases hlen

end Deliver

end Sukkula.LocalSend
