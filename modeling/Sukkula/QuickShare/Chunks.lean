import Sukkula.Library.Assoc
import Sukkula.Offer.Validate
import Sukkula.QuickShare.Receive
import Sukkula.Transfer.ReceivingFile

/-! # What a Quick Share receive writes

`receive` and `receive_chunk` with the bytes. Chunks of several files and the
text come in any order. A file is begun on its first chunk, gets the bodies of
its chunks one after another and is committed after the one marked last; a
failure anywhere ends the receive and drops the files that are open, which
removes their staging files. The disk decides how its calls end, and whose
staging file it does not remove.
-/

namespace Sukkula.QuickShare

open Assoc Text
open Offer (OfferFile maxMessageBytes)
open LocalSend (ErrorInfo)
open Transfer (ReceivingFile)

/-- A piece of a file. Where it starts in the file is not read. -/
structure FileChunk where
  payloadId : ℤ
  body : Bytes
  last : Bool
  deriving DecidableEq

structure Commit where
  id : ℤ
  file : OfferFile
  body : Bytes
  name : Str
  deriving DecidableEq

namespace Chunks

inductive Phase
  | accepting
  | waiting
  -- `begin_file` runs, for a chunk.
  | beginning (chunk : FileChunk) (file : OfferFile)
  -- `write` runs; whether the transfer was cancelled when it began.
  | writing (chunk : FileChunk) (cancelled : Bool)
  -- `commit` runs, on a file that is no longer in the map.
  | committing (id : ℤ) (f : ReceivingFile) (cancelled : Bool)
  | goodbye
  | ended (result : Except Ended (List Str))
  deriving DecidableEq

/-- How `begin_file` ends. -/
inductive Begin
  | began
  | fails (error : ErrorInfo)
  -- The staging file was made, and the call that asks for its inode failed.
  | statFails (error : ErrorInfo)
  deriving DecidableEq

inductive Act
  | sent
  | fail (error : ErrorInfo)
  | cancel
  | seeCancel
  | loopEnd
  | hungUp
  | timedOut
  | badFrame
  | quiet
  | chunk (chunk : FileChunk)
  | begun (answer : Begin)
  | wrote (disk : Except ErrorInfo Unit)
  -- Whether a copy of the file stays in the target's `.partial`: the `fstat` right after it was
  -- made failed, or the `statat` of its destructor, or its removal.
  | committed (disk : Except ErrorInfo Str) (copyStays : Bool)
  | text (id : ℤ) (text : Str)
  | cancelled
  | disconnected
  | introduction
  deriving DecidableEq

end Chunks

structure Chunks where
  -- The payloads that were announced as files, and the files that were accepted.
  ids : List ℤ
  files : List OfferFile
  textId : Option ℤ
  tokenCancelled : Bool
  pending : List ℤ
  textPending : Bool
  opened : Table ℤ ReceivingFile
  phase : Chunks.Phase
  saved : List Str
  texts : List Str
  chunks : List FileChunk
  commits : List Commit
  -- The payloads whose staging files or copies were left behind.
  left : List ℤ

namespace Chunks

def start (ids : List ℤ) (files : List OfferFile) (textId : Option ℤ) : Chunks where
  ids := ids
  files := files
  textId := textId
  tokenCancelled := false
  pending := ids.dedup
  textPending := textId.isSome
  opened := .empty
  phase := .accepting
  saved := []
  texts := []
  chunks := []
  commits := []
  left := []

section Step

-- The payloads whose staging files are not removed although that was tried.
variable (stuck : ℤ → Bool)

/-- The receive returns, and the open files are dropped. -/
def stop (r : Chunks) (e : Ended) : Chunks :=
  { r with
    opened := .empty
    left := r.left ++ (r.opened.entries.map Prod.fst).filter stuck
    phase := .ended (.error e) }

def awaits (r : Chunks) : Bool := r.pending ≠ [] || r.textPending

def receiveChunk (r : Chunks) (c : FileChunk) : Chunks :=
  let r := { r with chunks := r.chunks ++ [c] }
  if c.payloadId ∉ r.pending then r.stop stuck protocolError
  else match r.opened.lookup c.payloadId with
    | some _ => { r with phase := .writing c r.tokenCancelled }
    | none =>
      if maxOpenFiles ≤ r.opened.size then r.stop stuck protocolError
      else match r.files[r.ids.idxOf c.payloadId]? with
        | none => r.stop stuck protocolError
        | some file => { r with phase := .beginning c file }

/-- `begin_file` ended. -/
def begun (r : Chunks) (c : FileChunk) (file : OfferFile) : Begin → Chunks
  | .began =>
  { r with opened := r.opened.set c.payloadId (.new file), phase := .writing c r.tokenCancelled }
  | .fails e => r.stop stuck (.failed e)
  | .statFails e =>
    { r.stop stuck (.failed e) with left := c.payloadId :: (r.stop stuck (.failed e)).left }

/-- `write` ended. -/
def wrote (r : Chunks) (c : FileChunk) (cancelled : Bool) (disk : Except ErrorInfo Unit) : Chunks :=
  match r.opened.lookup c.payloadId with
  | none => r.stop stuck protocolError
  | some f =>
    match f.write cancelled c.body disk with
    | (.error e, _) => r.stop stuck (if r.tokenCancelled then .cancelledHere else .failed e)
    | (.ok (), f) =>
      if c.last then
        { r with
          opened := r.opened.remove c.payloadId,
          phase := .committing c.payloadId f r.tokenCancelled }
      else { r with opened := r.opened.set c.payloadId f, phase := .waiting }

/-- `commit` ended, and removed the staging file or tried to. A copy is made only of a file that may
be placed. -/
def committed (r : Chunks) (id : ℤ) (f : ReceivingFile) (cancelled : Bool)
    (disk : Except ErrorInfo Str) (copyStays : Bool) : Chunks :=
  let r :=
    { r with
      left := r.left ++ [id].filter fun id => stuck id || copyStays && f.placeable cancelled }
  match f.commit cancelled disk with
  | .error e => r.stop stuck (.failed e)
  | .ok name =>
    { r with
      saved := r.saved ++ [name]
      pending := r.pending.erase id
      commits := r.commits ++ [⟨id, f.file, f.body, name⟩]
      phase := .waiting }

def process (r : Chunks) : Act → Option Chunks
  | .hungUp => some (r.stop stuck (Receive.network "the sender hung up"))
  | .timedOut => some (r.stop stuck (Receive.network "the sender stopped sending"))
  | .badFrame => some (r.stop stuck (if r.tokenCancelled then .cancelledHere else protocolError))
  | .quiet => some r
  | .chunk c => some (r.receiveChunk stuck c)
  | .text id text =>
    if r.textPending ∧ some id = r.textId then
      some { r with textPending := false, texts := r.texts ++ [message maxMessageBytes text] }
    else some (r.stop stuck protocolError)
  | .cancelled => some (r.stop stuck .cancelledThere)
  | .disconnected => some (r.stop stuck (Receive.network "the sender hung up before the end"))
  | .introduction => some (r.stop stuck protocolError)
  | _ => none

def step (r : Chunks) (a : Act) : Option Chunks :=
  match r.phase, a with
  | .ended _, _ => none
  | _, .cancel => some { r with tokenCancelled := true }
  | .accepting, .sent => some { r with phase := .waiting }
  | .accepting, .fail e => some (r.stop stuck (.failed e))
  | .waiting, .loopEnd => if r.awaits then none else some { r with phase := .goodbye }
  | .waiting, .seeCancel =>
    if r.awaits ∧ r.tokenCancelled then some (r.stop stuck .cancelledHere) else none
  | .waiting, a => if r.awaits then r.process stuck a else none
  | .beginning c file, .begun answer => some (r.begun stuck c file answer)
  | .writing c cancelled, .wrote disk => some (r.wrote stuck c cancelled disk)
  | .committing id f cancelled, .committed disk copyStays =>
    some (r.committed stuck id f cancelled disk copyStays)
  | .goodbye, .sent => some { r with phase := .ended (.ok r.saved) }
  | _, _ => none

end Step

def staged (r : Chunks) : List ℤ :=
  r.left ++ r.opened.entries.map Prod.fst ++
    match r.phase with
    | .committing id _ _ => [id]
    | _ => []

def result (r : Chunks) : Option (Except Ended (List Str)) :=
  match r.phase with
  | .ended result => some result
  | _ => none

def of (id : ℤ) (chunks : List FileChunk) : List FileChunk := chunks.filter (·.payloadId = id)

def upToLast : List FileChunk → List FileChunk
  | [] => []
  | c :: cs => if c.last then [c] else c :: upToLast cs

/-- The content that the chunks of a payload make up. -/
def content (id : ℤ) (chunks : List FileChunk) : Bytes :=
  ((upToLast (of id chunks)).map FileChunk.body).flatten

variable {stuck : ℤ → Bool} {r r' : Chunks} {a : Act} {c : FileChunk}
  {cs settled : List FileChunk} {id id' : ℤ} {f f' : ReceivingFile} {ids : List ℤ}
  {files : List OfferFile}

theorem of_append (id : ℤ) (cs cs' : List FileChunk) : of id (cs ++ cs') = of id cs ++ of id cs' :=
  List.filter_append _ _

theorem of_singleton (c : FileChunk) : of c.payloadId [c] = [c] := by simp [of]

theorem of_singleton_ne (h : id ≠ c.payloadId) : of id [c] = [] := by simp [of, Ne.symm h]

theorem upToLast_append (h : ∀ c ∈ cs, c.last = false) (hc : c.last = true) (cs' : List FileChunk) :
    upToLast (cs ++ c :: cs') = cs ++ [c] := by
  induction cs with
  | nil => simp [upToLast, hc]
  | cons d cs ih =>
    have hd : d.last = false := h d (by simp)
    simp only [List.cons_append, upToLast, hd, Bool.false_eq_true, if_false]
    rw [ih fun e he => h e (by simp [he])]

/-- A file that got the chunks of its payload, of which none is the last. -/
structure Open (ids : List ℤ) (files : List OfferFile) (settled : List FileChunk) (id : ℤ)
    (f : ReceivingFile) : Prop where
  file : files[ids.idxOf id]? = some f.file
  sound : f.Sound
  body : f.body = ((of id settled).map FileChunk.body).flatten
  more : ∀ c ∈ of id settled, c.last = false

/-- The chunks of a payload up to the first marked last, which make up the body. -/
def Closed (settled : List FileChunk) (id : ℤ) (body : Bytes) : Prop :=
  ∃ cs c cs', of id settled = cs ++ c :: cs' ∧ (∀ c ∈ cs, c.last = false) ∧ c.last = true ∧
    body = ((cs ++ [c]).map FileChunk.body).flatten

theorem Closed.append {body : Bytes} (h : Closed settled id body) (cs : List FileChunk) :
    Closed (settled ++ cs) id body := by
  obtain ⟨pre, c, post, hof, hpre, hc, rfl⟩ := h
  refine ⟨pre, c, post ++ of id cs, ?_, hpre, hc, rfl⟩
  rw [of_append, hof, List.append_assoc, List.cons_append]

theorem Closed.content_eq {body : Bytes} (h : Closed settled id body) :
    body = content id settled := by
  obtain ⟨pre, c, post, hof, hpre, hc, rfl⟩ := h
  rw [content, hof, upToLast_append hpre hc]

/-- The chunk that is being written, or whose file is being begun. -/
def Phase.inFlight : Phase → List FileChunk
  | .beginning c _ | .writing c _ => [c]
  | _ => []

/-- The payload whose file is being committed. -/
def Phase.busy : Phase → Option ℤ
  | .committing id _ _ => some id
  | _ => none

/-- What is known of the files of a receive whose settled chunks are in the files. -/
structure Books (r : Chunks) (settled : List FileChunk) : Prop where
  nodup : r.pending.Nodup
  pending_iff : ∀ id, id ∈ r.pending ↔ id ∈ r.ids ∧ id ∉ r.commits.map Commit.id
  once : (r.commits.map Commit.id).Nodup
  saved : r.saved = r.commits.map Commit.name
  done : ∀ c ∈ r.commits, c.id ∈ r.ids ∧ r.files[r.ids.idxOf c.id]? = some c.file ∧
    c.body.length = c.file.size ∧ Closed settled c.id c.body
  opened : ∀ id f, r.opened.lookup id = some f → id ∈ r.pending ∧ Open r.ids r.files settled id f
  fresh : ∀ id ∈ r.pending, r.opened.lookup id = none → r.phase.busy ≠ some id → of id settled = []
  texts : r.texts.length = if r.textPending then 0 else r.textId.toList.length
  offered : r.textPending = true → r.textId.isSome
  few : r.opened.size ≤ maxOpenFiles

def Phase.Fits (r : Chunks) (settled : List FileChunk) : Phase → Prop
  | .beginning c file => c.payloadId ∈ r.pending ∧ r.opened.lookup c.payloadId = none ∧
      r.opened.size < maxOpenFiles ∧ r.files[r.ids.idxOf c.payloadId]? = some file
  | .writing c _ => c.payloadId ∈ r.pending ∧ r.opened.lookup c.payloadId ≠ none
  | .committing id f _ =>
  id ∈ r.pending ∧ r.opened.lookup id = none ∧ r.opened.size < maxOpenFiles ∧
      r.files[r.ids.idxOf id]? = some f.file ∧ f.Sound ∧ Closed settled id f.body
  | .goodbye => r.awaits = false
  | .ended (.ok saved) => r.awaits = false ∧ saved = r.saved
  | .ended (.error _) => False
  | _ => True

structure Going (r : Chunks) (settled : List FileChunk) : Prop where
  books : Books r settled
  chunks : r.chunks = settled ++ r.phase.inFlight
  fits : r.phase.Fits r settled

theorem going_start (ids : List ℤ) (files : List OfferFile) (textId : Option ℤ) :
    Going (start ids files textId) [] where
  books :=
    { nodup := List.nodup_dedup ids
      pending_iff := by simp [start]
      once := List.nodup_nil
      saved := rfl
      done := by simp [start]
      opened := nofun
      fresh := fun _ _ _ _ => rfl
      texts := by cases textId <;> rfl
      offered := id
      few := Nat.zero_le _ }
  chunks := rfl
  fits := trivial

theorem Books.move (h : Books r settled) {phase : Phase} (hbusy : phase.busy = r.phase.busy)
    (tokenCancelled : Bool) (chunks : List FileChunk) :
    Books { r with tokenCancelled, chunks, phase } settled :=
  { h with fresh := fun id hid ho hb => h.fresh id hid ho (hbusy ▸ hb) }

theorem Going.cancel (h : Going r settled) : Going { r with tokenCancelled := true } settled where
  books := h.books.move rfl true r.chunks
  chunks := h.chunks
  fits := by
    have hfits := h.fits
    unfold Phase.Fits at hfits ⊢
    exact hfits

/-- A chunk came: the receive ends, or goes on with the chunk in flight. -/
theorem Going.receiveChunk (stuck : ℤ → Bool) (h : Going r settled) (hp : r.phase = .waiting)
    (c : FileChunk) : Going (r.receiveChunk stuck c) settled ∨
    ∃ r₀ : Chunks, r.receiveChunk stuck c = r₀.stop stuck protocolError := by
  have hchunks : r.chunks ++ [c] = settled ++ [c] := by
    rw [h.chunks, hp]
    simp [Phase.inFlight]
  unfold Chunks.receiveChunk
  simp only
  by_cases hmem : c.payloadId ∈ r.pending
  · rw [if_neg (not_not.mpr hmem)]
    cases ho : r.opened.lookup c.payloadId with
    | some f =>
      refine Or.inl ⟨?_, hchunks, hmem, by simp [ho]⟩
      exact h.books.move (by rw [hp]; rfl) r.tokenCancelled _
    | none =>
      by_cases hsize : maxOpenFiles ≤ r.opened.size
      · exact Or.inr ⟨_, if_pos hsize⟩
      · simp only [if_neg hsize]
        cases hfile : r.files[r.ids.idxOf c.payloadId]? with
        | none => exact Or.inr ⟨_, rfl⟩
        | some file =>
          refine Or.inl ⟨?_, hchunks, hmem, ho, Nat.not_le.mp hsize, hfile⟩
          exact h.books.move (by rw [hp]; rfl) r.tokenCancelled _
  · exact Or.inr ⟨_, if_pos hmem⟩

theorem Going.began {file : OfferFile} (h : Going r settled) (hp : r.phase = .beginning c file) :
    Going (r.begun stuck c file .began) settled := by
  have hbooks := h.books
  have hfits := h.fits
  rw [hp] at hfits
  obtain ⟨hmem, hnone, hsize, hfile⟩ := hfits
  have hfresh : of c.payloadId settled = [] := hbooks.fresh _ hmem hnone (by simp [hp, Phase.busy])
  refine ⟨{ hbooks with opened := ?_, fresh := ?_, few := ?_ }, ?_, hmem, ?_⟩
  · intro id f hf
    simp only [begun, Table.lookup_set] at hf
    split_ifs at hf with hid
    · subst hid
      obtain rfl := Option.some.inj hf
      exact ⟨hmem, hfile, .new file, by simp [hfresh, ReceivingFile.new], by simp [hfresh]⟩
    · obtain ⟨hpend, hopen⟩ := hbooks.opened id f hf
      exact ⟨hpend, hopen.file, hopen.sound, hopen.body, hopen.more⟩
  · intro id hid ho _
    simp only [begun, Table.lookup_set] at ho
    split_ifs at ho
    exact hbooks.fresh id hid ho (by simp [hp, Phase.busy])
  · exact Table.size_set_le.trans hsize
  · have hchunks := h.chunks
    rw [hp] at hchunks
    exact hchunks
  · simp [begun]

theorem Open.write {disk : Except ErrorInfo Unit} {cancelled : Bool}
    (h : Open ids files settled c.payloadId f) (hw : f.write cancelled c.body disk = (.ok (), f')) :
    files[ids.idxOf c.payloadId]? = some f'.file ∧ f'.Sound ∧
      f'.body = ((of c.payloadId (settled ++ [c])).map FileChunk.body).flatten := by
  have hsound := h.sound.write_ok hw
  obtain ⟨rfl, -⟩ := ReceivingFile.write_ok hw
  refine ⟨h.file, hsound, ?_⟩
  simp only [of_append, of_singleton, List.map_append, List.flatten_append,
    List.map_cons, List.map_nil, List.flatten_cons, List.flatten_nil, List.append_nil, h.body]

theorem Open.other (h : Open ids files settled id f) (hid : id ≠ c.payloadId) :
    Open ids files (settled ++ [c]) id f := by
  have hof : of id (settled ++ [c]) = of id settled := by
    rw [of_append, of_singleton_ne hid, List.append_nil]
  exact ⟨h.file, h.sound, hof ▸ h.body, hof ▸ h.more⟩

/-- A payload that has no file has no chunk, also after one of another. -/
theorem of_settle_ne (h : of id settled = []) (hid : id ≠ c.payloadId) :
    of id (settled ++ [c]) = [] := by
  rw [of_append, h, of_singleton_ne hid, List.append_nil]

theorem Going.wrote_more {cancelled : Bool} {disk : Except ErrorInfo Unit} (h : Going r settled)
    (hp : r.phase = .writing c cancelled) (hf : r.opened.lookup c.payloadId = some f)
    (hw : f.write cancelled c.body disk = (.ok (), f')) (hlast : c.last = false) :
    Going { r with opened := r.opened.set c.payloadId f', phase := .waiting } (settled ++ [c]) := by
  have hbooks := h.books
  obtain ⟨hmem, hopen⟩ := hbooks.opened _ _ hf
  obtain ⟨hfile, hsound, hbody⟩ := hopen.write hw
  refine ⟨{ hbooks with done := ?_, opened := ?_, fresh := ?_, few := ?_ }, ?_, trivial⟩
  · intro d hd
    obtain ⟨hids, hdfile, hsize, hclosed⟩ := hbooks.done d hd
    exact ⟨hids, hdfile, hsize, hclosed.append _⟩
  · intro id g hg
    rw [Table.lookup_set] at hg
    split_ifs at hg with hid
    · subst hid
      obtain rfl := Option.some.inj hg
      refine ⟨hmem, hfile, hsound, hbody, fun d hd => ?_⟩
      rw [of_append, of_singleton, List.mem_append, List.mem_singleton] at hd
      rcases hd with hd | rfl
      · exact hopen.more d hd
      · exact hlast
    · obtain ⟨hpend, hother⟩ := hbooks.opened id g hg
      exact ⟨hpend, hother.other hid⟩
  · intro id hid ho _
    rw [Table.lookup_set] at ho
    split_ifs at ho with hne
    exact of_settle_ne (hbooks.fresh id hid ho (by simp [hp, Phase.busy])) hne
  · exact (Table.size_set_of_lookup (by simp [hf])).trans hbooks.few
  · have hchunks := h.chunks
    rw [hp] at hchunks
    simpa [Phase.inFlight] using hchunks

/-- The last chunk went into its file, which is to be committed. -/
theorem Going.wrote_last {cancelled : Bool} {disk : Except ErrorInfo Unit} (h : Going r settled)
    (hp : r.phase = .writing c cancelled) (hf : r.opened.lookup c.payloadId = some f)
    (hw : f.write cancelled c.body disk = (.ok (), f')) (hlast : c.last = true)
    (cancelled' : Bool) :
    Going { r with
      opened := r.opened.remove c.payloadId, phase := .committing c.payloadId f' cancelled' }
        (settled ++ [c]) := by
  have hbooks := h.books
  obtain ⟨hmem, hopen⟩ := hbooks.opened _ _ hf
  obtain ⟨hfile, hsound, hbody⟩ := hopen.write hw
  have hsize : (r.opened.remove c.payloadId).size < maxOpenFiles :=
    (Table.size_remove_lt (by simp [hf])).trans_le hbooks.few
  refine ⟨{ hbooks with done := ?_, opened := ?_, fresh := ?_, few := hsize.le }, ?_, ?_⟩
  · intro d hd
    obtain ⟨hids, hdfile, hdsize, hclosed⟩ := hbooks.done d hd
    exact ⟨hids, hdfile, hdsize, hclosed.append _⟩
  · intro id g hg
    rw [Table.lookup_remove] at hg
    split_ifs at hg with hid
    obtain ⟨hpend, hother⟩ := hbooks.opened id g hg
    exact ⟨hpend, hother.other hid⟩
  · intro id hid ho hbusy
    rw [Table.lookup_remove] at ho
    have hne : id ≠ c.payloadId := fun he => hbusy (by simp [Phase.busy, he])
    rw [if_neg hne] at ho
    exact of_settle_ne (hbooks.fresh id hid ho (by simp [hp, Phase.busy])) hne
  · have hchunks := h.chunks
    rw [hp] at hchunks
    simpa [Phase.inFlight] using hchunks
  · refine ⟨hmem, by simp, hsize, hfile, hsound, of c.payloadId settled, c, [], ?_,
      hopen.more, hlast, ?_⟩
    · rw [of_append, of_singleton]
    · rw [hbody, of_append, of_singleton]

theorem Going.placed {cancelled : Bool} {disk : Except ErrorInfo Str} {name : Str}
    (h : Going r settled) (hp : r.phase = .committing id f cancelled)
    (hc : f.commit cancelled disk = .ok name) (left : List ℤ) : Going { r with
      left
      saved := r.saved ++ [name]
      pending := r.pending.erase id
      commits := r.commits ++ [⟨id, f.file, f.body, name⟩]
      phase := .waiting } settled := by
  have hbooks := h.books
  have hfits := h.fits
  rw [hp] at hfits
  obtain ⟨hmem, hnone, hsize, hfile, hsound, hclosed⟩ := hfits
  obtain ⟨hids, hnew⟩ := (hbooks.pending_iff id).mp hmem
  refine ⟨{ hbooks with
    nodup := hbooks.nodup.erase id, pending_iff := ?_, once := ?_, saved := ?_, done := ?_,
    opened := ?_, fresh := ?_ }, ?_, trivial⟩
  · intro id'
    rw [hbooks.nodup.mem_erase_iff, hbooks.pending_iff]
    simp only [List.map_append, List.map_cons, List.map_nil, List.mem_append,
      List.mem_singleton, not_or]
    tauto
  · rw [List.map_append, List.nodup_append]
    refine ⟨hbooks.once, List.nodup_singleton id, ?_⟩
    intro x hx y hy
    obtain rfl := List.mem_singleton.mp hy
    rintro rfl
    exact hnew hx
  · rw [List.map_append, hbooks.saved]
    rfl
  · intro d hd
    rcases List.mem_append.mp hd with hd | hd
    · exact hbooks.done d hd
    · obtain rfl := List.mem_singleton.mp hd
      exact ⟨hids, hfile, hsound.commit_ok hc, hclosed⟩
  · intro id' g hg
    obtain ⟨hpend, hopen⟩ := hbooks.opened id' g hg
    refine ⟨hbooks.nodup.mem_erase_iff.mpr ⟨?_, hpend⟩, hopen⟩
    rintro rfl
    cases hnone.symm.trans hg
  · intro id' hid' ho _
    obtain ⟨hne, hpend⟩ := hbooks.nodup.mem_erase_iff.mp hid'
    refine hbooks.fresh id' hpend ho ?_
    simpa [hp, Phase.busy] using hne.symm
  · have hchunks := h.chunks
    rw [hp] at hchunks
    exact hchunks

theorem Going.text {t : Str} (h : Going r settled) (hp : r.phase = .waiting)
    (ht : r.textPending = true) (hid : some id = r.textId) :
    Going { r with textPending := false, texts := r.texts ++ [t] } settled := by
  have hbooks := h.books
  refine ⟨{ hbooks with texts := ?_, offered := nofun }, h.chunks, ?_⟩
  · have htexts := hbooks.texts
    rw [if_pos ht] at htexts
    simp [htexts, ← hid]
  · simp only [hp]
    trivial

/-- The receive goes on or has ended well, or has ended in an error with nothing open. -/
def Inv (r : Chunks) : Prop :=
  (∃ settled, Going r settled) ∨ (∃ e, r.phase = .ended (.error e)) ∧ r.opened = .empty

theorem inv_stop (r : Chunks) (e : Ended) : Inv (r.stop stuck e) := Or.inr ⟨⟨e, rfl⟩, rfl⟩

theorem Going.begun {file : OfferFile} {answer : Begin} (h : Going r settled)
    (hp : r.phase = .beginning c file) : Inv (r.begun stuck c file answer) := by
  cases answer with
  | began => exact Or.inl ⟨settled, h.began hp⟩
  | fails e => exact inv_stop r _
  | statFails e => exact Or.inr ⟨⟨_, rfl⟩, rfl⟩

theorem Going.wrote {cancelled : Bool} {disk : Except ErrorInfo Unit} (h : Going r settled)
    (hp : r.phase = .writing c cancelled) : Inv (r.wrote stuck c cancelled disk) := by
  unfold Chunks.wrote
  cases hf : r.opened.lookup c.payloadId with
  | none => exact inv_stop r _
  | some f =>
    simp only
    rcases hw : f.write cancelled c.body disk with ⟨e | u, f'⟩
    · exact inv_stop r _
    · cases hlast : c.last with
      | true => exact Or.inl ⟨_, h.wrote_last hp hf hw hlast _⟩
      | false => exact Or.inl ⟨_, h.wrote_more hp hf hw hlast⟩

theorem Going.committed {cancelled copyStays : Bool} {disk : Except ErrorInfo Str}
    (h : Going r settled) (hp : r.phase = .committing id f cancelled) :
    Inv (r.committed stuck id f cancelled disk copyStays) := by
  unfold Chunks.committed
  simp only
  cases hc : f.commit cancelled disk with
  | error e => exact inv_stop _ _
  | ok name => exact Or.inl ⟨settled, h.placed hp hc _⟩

theorem Going.process (h : Going r settled) (hp : r.phase = .waiting)
    (hs : r.process stuck a = some r') : Inv r' := by
  cases a with
  | hungUp | timedOut | badFrame | cancelled | disconnected | introduction =>
    exact Option.some.inj hs ▸ inv_stop r _
  | quiet => exact Option.some.inj hs ▸ Or.inl ⟨settled, h⟩
  | chunk c =>
    obtain rfl := Option.some.inj hs
    rcases h.receiveChunk stuck hp c with hgoing | ⟨r₀, hstop⟩
    · exact Or.inl ⟨settled, hgoing⟩
    · exact hstop ▸ inv_stop r₀ _
  | text id t =>
    simp only [Chunks.process] at hs
    split_ifs at hs with ht
    · exact Option.some.inj hs ▸ Or.inl ⟨settled, h.text hp ht.1 ht.2⟩
    · exact Option.some.inj hs ▸ inv_stop r _
  | sent | fail | cancel | seeCancel | loopEnd | begun | wrote | committed => cases hs

theorem Going.phase (h : Going r settled) {phase : Phase} (hflight : r.phase.inFlight = [])
    (hflight' : phase.inFlight = []) (hbusy : phase.busy = r.phase.busy)
    (hfits : phase.Fits r settled) : Going { r with phase } settled := by
  refine ⟨h.books.move hbusy r.tokenCancelled r.chunks, ?_, ?_⟩
  · rw [h.chunks, hflight, hflight']
  · unfold Phase.Fits at hfits ⊢
    exact hfits

theorem Going.step (h : Going r settled) (hs : step stuck r a = some r') : Inv r' := by
  unfold Chunks.step at hs
  split at hs
  · cases hs
  · exact Option.some.inj hs ▸ Or.inl ⟨settled, h.cancel⟩
  · rename_i hp
    exact Option.some.inj hs ▸
      Or.inl ⟨settled, h.phase (by simp [hp, Phase.inFlight]) rfl
        (by simp [hp, Phase.busy]) trivial⟩
  · exact Option.some.inj hs ▸ inv_stop r _
  · rename_i hp
    split_ifs at hs with ha
    have hdone : r.awaits = false := by simpa using ha
    exact Option.some.inj hs ▸
      Or.inl ⟨settled, h.phase (by simp [hp, Phase.inFlight]) rfl (by simp [hp, Phase.busy]) hdone⟩
  · split_ifs at hs
    exact Option.some.inj hs ▸ inv_stop r _
  · split_ifs at hs
    exact h.process ‹_› hs
  · exact Option.some.inj hs ▸ h.begun ‹_›
  · exact Option.some.inj hs ▸ h.wrote ‹_›
  · exact Option.some.inj hs ▸ h.committed ‹_›
  · rename_i hp
    have hfits := h.fits
    rw [hp] at hfits
    exact Option.some.inj hs ▸
      Or.inl ⟨settled, h.phase (by simp [hp, Phase.inFlight]) rfl
        (by simp [hp, Phase.busy]) ⟨hfits, rfl⟩⟩
  · cases hs

theorem Inv.step (h : Inv r) (hs : step stuck r a = some r') : Inv r' := by
  rcases h with ⟨settled, hgoing⟩ | ⟨⟨e, he⟩, -⟩
  · exact hgoing.step hs
  · unfold Chunks.step at hs
    rw [he] at hs
    cases hs

def Act.chunks : Act → List FileChunk
  | .chunk c => [c]
  | _ => []

/-- What a step leaves as it is, and the record of the chunks. -/
structure Same (stuck : ℤ → Bool) (r : Chunks) (a : Act) (r' : Chunks) : Prop where
  ids : r'.ids = r.ids
  files : r'.files = r.files
  textId : r'.textId = r.textId
  chunks : r'.chunks = r.chunks ++ a.chunks
  left : (∀ id, stuck id = false) → (∀ e, a ≠ .begun (.statFails e)) →
    (∀ disk, a ≠ .committed disk true) → r'.left = r.left

theorem left_stop (hq : ∀ id, stuck id = false) (r : Chunks) (e : Ended) :
    (r.stop stuck e).left = r.left := by
  simp [stop, hq]

theorem Same.stop {e : Ended} (ha : a.chunks = []) : Same stuck r a (r.stop stuck e) :=
  ⟨rfl, rfl, rfl, by simp [ha, Chunks.stop], fun hq _ _ => left_stop hq r e⟩

theorem Same.receiveChunk (r : Chunks) (c : FileChunk) :
    Same stuck r (.chunk c) (r.receiveChunk stuck c) := by
  unfold Chunks.receiveChunk
  simp only
  split
  · exact ⟨rfl, rfl, rfl, rfl, fun hq _ _ => left_stop hq _ _⟩
  · split
    · exact ⟨rfl, rfl, rfl, rfl, fun _ _ _ => rfl⟩
    · split
      · exact ⟨rfl, rfl, rfl, rfl, fun hq _ _ => left_stop hq _ _⟩
      · split
        · exact ⟨rfl, rfl, rfl, rfl, fun hq _ _ => left_stop hq _ _⟩
        · exact ⟨rfl, rfl, rfl, rfl, fun _ _ _ => rfl⟩

theorem Same.process (hs : r.process stuck a = some r') : Same stuck r a r' := by
  cases a with
  | hungUp | timedOut | badFrame | cancelled | disconnected | introduction =>
    exact Option.some.inj hs ▸ .stop rfl
  | quiet => exact Option.some.inj hs ▸ ⟨rfl, rfl, rfl, by simp [Act.chunks], fun _ _ _ => rfl⟩
  | chunk c => exact Option.some.inj hs ▸ .receiveChunk r c
  | text id t =>
    simp only [Chunks.process] at hs
    split_ifs at hs
    · exact Option.some.inj hs ▸ ⟨rfl, rfl, rfl, by simp [Act.chunks], fun _ _ _ => rfl⟩
    · exact Option.some.inj hs ▸ .stop rfl
  | sent | fail | cancel | seeCancel | loopEnd | begun | wrote | committed => cases hs

theorem Same.begun {file : OfferFile} {answer : Begin} :
    Same stuck r (.begun answer) (r.begun stuck c file answer) := by
  cases answer with
  | began => exact ⟨rfl, rfl, rfl, by simp [Act.chunks, Chunks.begun], fun _ _ _ => rfl⟩
  | fails e => exact .stop rfl
  | statFails e =>
    exact ⟨rfl, rfl, rfl, by simp [Act.chunks, Chunks.begun, Chunks.stop],
      fun _ h _ => absurd rfl (h e)⟩

theorem Same.wrote {cancelled : Bool} {disk : Except ErrorInfo Unit} :
    Same stuck r (.wrote disk) (r.wrote stuck c cancelled disk) := by
  unfold Chunks.wrote
  split
  · exact .stop rfl
  · split
    · exact .stop rfl
    · split
      · exact ⟨rfl, rfl, rfl, by simp [Act.chunks], fun _ _ _ => rfl⟩
      · exact ⟨rfl, rfl, rfl, by simp [Act.chunks], fun _ _ _ => rfl⟩

theorem Same.committed {cancelled copyStays : Bool} {disk : Except ErrorInfo Str} :
    Same stuck r (.committed disk copyStays) (r.committed stuck id f cancelled disk copyStays) := by
  have hleft : (∀ id, stuck id = false) →
      (∀ d, (.committed disk copyStays : Act) ≠ .committed d true) →
      r.left ++ [id].filter (fun id => stuck id || copyStays && f.placeable cancelled) =
      r.left := by
    intro hq hcopy
    cases copyStays with
    | true => exact absurd rfl (hcopy disk)
    | false => simp [hq]
  unfold Chunks.committed
  simp only
  split
  · exact ⟨rfl, rfl, rfl, by simp [Act.chunks, Chunks.stop],
      fun hq _ hcopy => (left_stop hq _ _).trans (hleft hq hcopy)⟩
  · exact ⟨rfl, rfl, rfl, by simp [Act.chunks], fun hq _ hcopy => hleft hq hcopy⟩

theorem same_of_step (hs : step stuck r a = some r') : Same stuck r a r' := by
  unfold Chunks.step at hs
  split at hs
  · cases hs
  · exact Option.some.inj hs ▸ ⟨rfl, rfl, rfl, by simp [Act.chunks], fun _ _ _ => rfl⟩
  · exact Option.some.inj hs ▸ ⟨rfl, rfl, rfl, by simp [Act.chunks], fun _ _ _ => rfl⟩
  · exact Option.some.inj hs ▸ .stop rfl
  · split_ifs at hs
    exact Option.some.inj hs ▸ ⟨rfl, rfl, rfl, by simp [Act.chunks], fun _ _ _ => rfl⟩
  · split_ifs at hs
    exact Option.some.inj hs ▸ .stop rfl
  · split_ifs at hs
    exact .process hs
  · exact Option.some.inj hs ▸ .begun
  · exact Option.some.inj hs ▸ .wrote
  · exact Option.some.inj hs ▸ .committed
  · exact Option.some.inj hs ▸ ⟨rfl, rfl, rfl, by simp [Act.chunks], fun _ _ _ => rfl⟩
  · cases hs

open Transition

theorem inv_run {ids : List ℤ} {files : List OfferFile} {textId : Option ℤ} {acts : List Act}
    (h : exec (step stuck) (start ids files textId) acts = some r) : Inv r :=
  exec_invariant (fun _ _ _ => Inv.step) (Or.inl ⟨[], going_start ids files textId⟩) h

theorem same_of_exec {acts : List Act} (h : exec (step stuck) r acts = some r') :
    r'.ids = r.ids ∧ r'.files = r.files ∧ r'.textId = r.textId ∧ r'.chunks =
    r.chunks ++ acts.flatMap Act.chunks ∧
      ((∀ id, stuck id = false) → (∀ e, .begun (.statFails e) ∉ acts) →
        (∀ disk, .committed disk true ∉ acts) → r'.left = r.left) := by
  induction acts generalizing r with
  | nil =>
    obtain rfl := Option.some.inj h
    simp
  | cons a acts ih =>
    obtain ⟨t, ht, hr⟩ := exec_cons_eq_some.mp h
    have hsame := same_of_step ht
    obtain ⟨hids, hfiles, htext, hchunks, hleft⟩ := ih hr
    refine ⟨hids.trans hsame.ids, hfiles.trans hsame.files, htext.trans hsame.textId, ?_,
      fun hq hst hcopy => ?_⟩
    · rw [hchunks, hsame.chunks, List.flatMap_cons, List.append_assoc]
    · rw [hleft hq (fun e he => hst e (by simp [he])) fun disk hd => hcopy disk (by simp [hd])]
      exact hsame.left hq (fun e he => hst e (by simp [he])) fun disk hd =>
        hcopy disk (by simp [hd])

theorem Books.perm (h : Books r settled) (hids : r.ids.Nodup) (hdone : r.awaits = false) :
    (r.commits.map Commit.id).Perm r.ids := by
  have hpending : r.pending = [] := by
    simp only [awaits, Bool.or_eq_false_iff, decide_eq_false_iff_not, not_not] at hdone
    exact hdone.1
  refine (List.perm_ext_iff_of_nodup h.once hids).mpr fun id => ⟨fun hid => ?_, fun hid => ?_⟩
  · obtain ⟨c, hc, rfl⟩ := List.mem_map.mp hid
    exact (h.done c hc).1
  · by_contra hnot
    have hmem := (h.pending_iff id).mpr ⟨hid, hnot⟩
    rw [hpending] at hmem
    cases hmem

/-- The commit of a payload is the only one, and it has the bytes of its chunks. -/
theorem Books.committed_once (h : Books r settled) (hids : r.ids.Nodup)
    (hdone : r.awaits = false) {i : ℕ} {file : OfferFile} (hid : r.ids[i]? = some id)
    (hfile : r.files[i]? = some file) :
    ∃ name, r.commits.filter (·.id = id) = [⟨id, file, content id settled, name⟩] ∧
      (content id settled).length = file.size := by
  have hmem : id ∈ r.commits.map Commit.id :=
    (h.perm hids hdone).mem_iff.mpr (List.mem_of_getElem? hid)
  obtain ⟨c, hc, rfl⟩ := List.mem_map.mp hmem
  obtain ⟨-, hcfile, hsize, hclosed⟩ := h.done c hc
  obtain ⟨hi, hget⟩ := List.getElem?_eq_some_iff.mp hid
  have hidx : r.ids.idxOf c.id = i := by
    rw [← hget]
    exact hids.idxOf_getElem i hi
  obtain rfl : c.file = file := by
    rw [hidx, hfile] at hcfile
    exact (Option.some.inj hcfile).symm
  have hbody := hclosed.content_eq
  refine ⟨c.name, ?_, hbody ▸ hsize⟩
  -- no other commit has this payload
  obtain ⟨l₁, l₂, hl⟩ := List.append_of_mem hc
  have hnot : ∀ d ∈ l₁ ++ l₂, d.id ≠ c.id := by
    have honce := h.once
    rw [hl, List.map_append, List.map_cons] at honce
    have hcons := List.perm_middle.nodup_iff.mp honce
    rw [List.nodup_cons, ← List.map_append] at hcons
    intro d hd heq
    exact hcons.1 (heq ▸ List.mem_map_of_mem hd)
  rw [hl, List.filter_append, List.filter_cons_of_pos (by simp)]
  rw [List.filter_eq_nil_iff.mpr fun d hd => by simpa using hnot d (List.mem_append_left _ hd),
    List.filter_eq_nil_iff.mpr fun d hd => by simpa using hnot d (List.mem_append_right _ hd)]
  rw [List.nil_append, ← hbody]

theorem Inv.going (h : Inv r) (hp : ∀ e, r.phase ≠ .ended (.error e)) :
    ∃ settled, Going r settled := by
  rcases h with h | ⟨⟨e, he⟩, -⟩
  · exact h
  · exact absurd he (hp e)

/-- Without leftovers, the staging files are those of the files that are open or being committed. -/
theorem Going.staged_le (h : Going r settled) (hleft : r.left = []) :
    r.staged.length ≤ maxOpenFiles := by
  have hfew := h.books.few
  have hfits := h.fits
  simp only [staged, hleft, List.nil_append, List.length_append, List.length_map]
  change r.opened.size + _ ≤ _
  cases hp : r.phase with
  | committing id f cancelled =>
    rw [hp] at hfits
    exact hfits.2.2.1
  | accepting | waiting | beginning | writing | goodbye | ended => exact hfew

/-- The event ends the receive in an error, and nothing of it is kept. -/
def Rejects (stuck : ℤ → Bool) (r : Chunks) (a : Act) : Prop :=
  ∃ r', step stuck r a = some r' ∧ r'.result = some (.error protocolError) ∧
    r'.commits = r.commits ∧ r'.texts = r.texts ∧ r'.opened = .empty

theorem rejects_of_process {r₀ : Chunks} (hp : r.phase = .waiting) (ha : r.awaits = true)
    (hloop : a ≠ .loopEnd) (hsee : a ≠ .seeCancel) (hcancel : a ≠ .cancel)
    (hs : r.process stuck a = some (r₀.stop stuck protocolError)) (hc : r₀.commits = r.commits)
    (ht : r₀.texts = r.texts) : Rejects stuck r a := by
  refine ⟨r₀.stop stuck protocolError, ?_, rfl, hc, ht, rfl⟩
  unfold step
  rw [hp]
  cases a <;> first | contradiction | simpa [ha] using hs

theorem rejects_chunk (h : Books r settled) (hp : r.phase = .waiting) (ha : r.awaits = true)
    (hc : c.payloadId ∉ r.ids ∨ c.payloadId ∈ r.commits.map Commit.id) :
    Rejects stuck r (.chunk c) := by
  have hnot : c.payloadId ∉ r.pending := by
    rw [h.pending_iff]
    tauto
  exact rejects_of_process hp ha nofun nofun nofun (congrArg some (if_pos hnot)) rfl rfl

theorem rejects_text {t : Str} (h : Books r settled) (hp : r.phase = .waiting)
    (ha : r.awaits = true) (ht : r.textId ≠ some id ∨ r.texts ≠ []) :
    Rejects stuck r (.text id t) := by
  refine rejects_of_process hp ha nofun nofun nofun (if_neg ?_) rfl rfl
  rintro ⟨hpend, hid⟩
  rcases ht with ht | ht
  · exact ht hid.symm
  · have htexts := h.texts
    rw [if_pos hpend] at htexts
    exact ht (List.length_eq_zero_iff.mp htexts)

theorem phase_of_result {x : Except Ended (List Str)} (h : r.result = some x) :
    r.phase = .ended x := by
  unfold result at h
  split at h
  · rw [‹r.phase = _›, Option.some.inj h]
  · cases h

structure Introduced where
  payloadId : ℤ
  name : Str
  size : ℤ
  mimeType : Str
  deriving DecidableEq

/-- A file of `raw_offer`. -/
def Introduced.raw (f : Introduced) : Offer.RawFile := ⟨f.name, f.size, some f.mimeType, none⟩

/-- A receive of an accepted offer that ends well has placed every file once, with the bytes of its
chunks up to the last and of the accepted size, and emitted the text if there was one; what was not
offered or came before ends it in an error. Where no `fstat` of a new staging file fails, staging
files can be removed and no copy stays, few are staged at any time and none after an error. -/
theorem received_exactly (stuck : ℤ → Bool) (introduction : List Introduced) (raw : Offer.RawOffer)
    (offer : Offer) (textId : Option ℤ) (acts : List Act) (r : Chunks)
    (hnodup : (introduction.map Introduced.payloadId).Nodup)
    (hraw : raw.files = introduction.map Introduced.raw) (hoffer : Offer.validate raw = .ok offer)
    (hrun : exec (step stuck) (start (introduction.map Introduced.payloadId) offer.files textId)
      acts = some r) :
    (∀ saved, r.result = some (.ok saved) → saved = r.commits.map Commit.name ∧
      (r.commits.map Commit.id).Perm (introduction.map Introduced.payloadId) ∧
      (∀ (i : ℕ) (f : Introduced) (file : OfferFile), introduction[i]? = some f →
        offer.files[i]? = some file → ∃ name, r.commits.filter (·.id = f.payloadId) =
            [⟨f.payloadId, file, content f.payloadId (acts.flatMap Act.chunks), name⟩] ∧
          (content f.payloadId (acts.flatMap Act.chunks)).length = file.size) ∧
      offer.files.length = introduction.length ∧
      r.texts.length = if textId.isSome then 1 else 0) ∧
    (r.phase = .waiting → r.awaits = true →
      (∀ c : FileChunk, c.payloadId ∉ introduction.map Introduced.payloadId ∨
        c.payloadId ∈ r.commits.map Commit.id → Rejects stuck r (.chunk c)) ∧
      (∀ id t, textId ≠ some id ∨ r.texts ≠ [] → Rejects stuck r (.text id t)) ∧
      Rejects stuck r .introduction) ∧
    ((∀ id, stuck id = false) → (∀ e, .begun (.statFails e) ∉ acts) →
      (∀ disk, .committed disk true ∉ acts) → r.staged.length ≤ 4 ∧ ∀ e, r.result =
      some (.error e) → r.staged = []) := by
  have hinv := inv_run hrun
  obtain ⟨hids, hfiles, htext, hchunks, hleft⟩ := same_of_exec hrun
  refine ⟨?_, ?_, ?_⟩
  · intro saved hres
    have hp := phase_of_result hres
    obtain ⟨settled, hgoing⟩ := hinv.going (by simp [hp])
    have hfits := hgoing.fits
    rw [hp] at hfits
    obtain ⟨hdone, hsaved⟩ := hfits
    have hsettled : acts.flatMap Act.chunks = settled := by
      have := hgoing.chunks
      rw [hchunks, hp] at this
      simpa [start, Phase.inFlight] using this
    have hbooks := hgoing.books
    have hnd : r.ids.Nodup := hids ▸ hnodup
    refine ⟨hsaved.trans hbooks.saved, ?_, ?_, ?_, ?_⟩
    · rw [← show r.ids = introduction.map Introduced.payloadId from hids]
      exact hbooks.perm hnd hdone
    · intro i f file hf hfile
      rw [hsettled]
      refine hbooks.committed_once hnd hdone (i := i) ?_ (hfiles ▸ hfile)
      rw [hids]
      simp [start, hf]
    · rw [Offer.length_files_of_validate hoffer, hraw, List.length_map]
    · have htexts := hbooks.texts
      have hpend : r.textPending = false := by
        simp only [awaits, Bool.or_eq_false_iff] at hdone
        exact hdone.2
      rw [hpend, htext] at htexts
      simp only [Bool.false_eq_true, if_false, start] at htexts
      rw [htexts]
      cases textId <;> rfl
  · intro hp ha
    obtain ⟨settled, hgoing⟩ := hinv.going (by simp [hp])
    have hbooks := hgoing.books
    refine ⟨fun c hc => rejects_chunk hbooks hp ha (hids ▸ hc), fun id t ht => ?_, ?_⟩
    · exact rejects_text hbooks hp ha (htext ▸ ht)
    · exact rejects_of_process hp ha nofun nofun nofun rfl rfl rfl
  · intro hq hst hcopy
    have hnone : r.left = [] := hleft hq hst hcopy
    rcases hinv with ⟨settled, hgoing⟩ | ⟨⟨e, he⟩, hopened⟩
    · refine ⟨hgoing.staged_le hnone, fun e he => ?_⟩
      have hfits := hgoing.fits
      rw [phase_of_result he] at hfits
      exact hfits.elim
    · have hstaged : r.staged = [] := by simp [staged, hnone, hopened, he, Table.empty]
      exact ⟨by simp [hstaged], fun _ _ => hstaged⟩

def introducedAB : List Introduced :=
  [⟨7, ['a'], 3, "text/plain".toList⟩, ⟨9, ['b'], 2, "text/plain".toList⟩]

def offerAB : Offer.RawOffer where
  protocol := .quickShare
  sender := []
  files := introducedAB.map Introduced.raw
  text := some ['h', 'i']

theorem acceptable_offerAB : Offer.Acceptable offerAB := by
  refine ⟨by decide, ?_, by decide, ?_, ?_, nofun, Or.inl nofun⟩
  · simp [offerAB, introducedAB, Introduced.raw]
  · rintro t ⟨⟩
    decide
  · simp [offerAB, introducedAB, Introduced.raw, Offer.DigestOk]

/-- The files come in two chunks each, in turn, and the text between them. -/
def placedAB : List Act :=
  [.sent, .chunk ⟨7, [1, 2], false⟩, .begun .began, .wrote (.ok ()), .chunk ⟨9, [3], false⟩,
    .begun .began, .wrote (.ok ()), .text 5 ['h', 'i'], .chunk ⟨7, [4], true⟩, .wrote (.ok ()),
    .committed (.ok ['a']) false, .quiet, .chunk ⟨9, [5], true⟩, .wrote (.ok ()),
    .committed (.ok ['b']) false, .loopEnd, .sent]

theorem received_exactly_placedAB : ∃ offer r, Offer.validate offerAB = .ok offer ∧
    exec (step fun _ => false) (start [7, 9] offer.files (some 5)) placedAB = some r ∧
    r.result = some (.ok [['a'], ['b']]) ∧ r.texts.length = 1 ∧ r.staged = [] ∧
    ∃ file name, offer.files[0]? = some file ∧
      r.commits.filter (·.id = 7) = [⟨7, file, [1, 2, 4], name⟩] ∧ file.size = 3 := by
  have hvalid : Offer.validate offerAB = .ok (Offer.clean offerAB) :=
    Offer.validate_eq_ok.mpr ⟨acceptable_offerAB, rfl⟩
  have hrun : ∃ r, exec (step fun _ => false) (start [7, 9] (Offer.clean offerAB).files (some 5))
      placedAB = some r ∧ r.result = some (.ok [['a'], ['b']]) ∧ r.staged = [] := ⟨_, rfl, rfl, rfl⟩
  obtain ⟨r, hr, hres, hstaged⟩ := hrun
  obtain ⟨hok, -, -⟩ :=
    received_exactly (fun _ => false) introducedAB offerAB _ (some 5) placedAB r (by decide) rfl
    hvalid hr
  obtain ⟨-, -, hcommit, -, htexts⟩ := hok _ hres
  obtain ⟨name, hfilter, hsize⟩ := hcommit 0 _ _ rfl rfl
  exact ⟨_, r, hvalid, hr, hres, htexts, hstaged, _, name, rfl, hfilter, hsize.symm⟩

def introducedA : Introduced := ⟨7, ['a'], 0, "text/plain".toList⟩

def offerA : Offer.RawOffer := { protocol := .quickShare, sender := [], files := [introducedA.raw] }

theorem validate_offerA : ∃ offer, Offer.validate offerA = .ok offer := by
  have hok : Offer.Acceptable offerA := by
    refine ⟨by decide, ?_, by decide, nofun, ?_, nofun, Or.inl nofun⟩
    · simp [offerA, introducedA, Introduced.raw]
    · simp [offerA, introducedA, Introduced.raw, Offer.DigestOk]
  exact ⟨_, Offer.validate_eq_ok.mpr ⟨hok, rfl⟩⟩

/-- The staging file is made, and `fstat` fails. -/
def statFailsA : List Act :=
  [.sent, .chunk ⟨7, [], true⟩, .begun (.statFails ⟨.storage, "i/o error"⟩)]

/-- The receive ends in an error, and the staging file is still there. -/
theorem staged_left_behind : ∃ offer r, Offer.validate offerA = .ok offer ∧
    exec (step fun _ => false) (start [7] offer.files none) statFailsA = some r ∧
    r.result = some (.error (.failed ⟨.storage, "i/o error"⟩)) ∧ r.staged = [7] := by
  obtain ⟨offer, hoffer⟩ := validate_offerA
  obtain ⟨file, hfiles⟩ : ∃ file, offer.files = [file] := by
    obtain ⟨-, rfl⟩ := Offer.validate_eq_ok.mp hoffer
    exact ⟨_, rfl⟩
  have hrun : ∃ r, exec (step fun _ => false) (start [7] offer.files none) statFailsA = some r ∧
      r.result = some (.error (.failed ⟨.storage, "i/o error"⟩)) ∧ r.staged = [7] := by
    rw [hfiles]
    exact ⟨_, rfl, rfl, rfl⟩
  obtain ⟨r, hr, hresult, hstaged⟩ := hrun
  exact ⟨offer, r, hoffer, hr, hresult, hstaged⟩

end Chunks

end Sukkula.QuickShare
