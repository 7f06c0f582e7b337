import Sukkula.Transfer.Report

/-! # Receiving over Quick Share, after the yes

`receive`: the chunks of the files come in any order that the sender likes, a few
files at a time; each file goes to the inbox and is committed after its last
chunk. The loop ends well when every file and the text are there, and in an error
as soon as anything goes wrong.
-/

namespace Sukkula.QuickShare

open Offer (OfferFile)
open LocalSend (ErrorInfo Outcome)

def maxOpenFiles : ℕ := 4

inductive Ended
  | cancelledHere
  | cancelledThere
  | failed (error : ErrorInfo)
  deriving DecidableEq, Repr

def protocolError : Ended := .failed ⟨.network, "the sender broke the protocol"⟩

namespace Receive

inductive Phase
  | accepting
  | waiting
  | goodbye
  | ended (result : Except Ended (List Str))
  deriving DecidableEq

inductive Inbox
  | beginFails (error : ErrorInfo)
  | writeFails (error : ErrorInfo)
  | written
  | commitFails (error : ErrorInfo)
  | committed (name : Str)
  deriving DecidableEq, Repr

inductive Act
  | sent
  | fail (error : ErrorInfo)
  | cancel
  | seeCancel
  | loopEnd
  | hungUp
  | timedOut
  | badFrame
  | quiet
  | chunk (id : ℤ) (last : Bool) (inbox : Inbox)
  | text (id : ℤ)
  | cancelled
  | disconnected
  | introduction
  deriving DecidableEq, Repr

end Receive

structure Receive where
  -- The payloads that were announced as files, and the files that were accepted.
  ids : List ℤ
  files : List OfferFile
  textId : Option ℤ
  tokenCancelled : Bool
  pending : List ℤ
  textPending : Bool
  opened : List ℤ
  phase : Receive.Phase
  saved : List Str
  placed : List Str
  deriving DecidableEq

namespace Receive

def start (ids : List ℤ) (files : List OfferFile) (textId : Option ℤ) : Receive where
  ids := ids
  files := files
  textId := textId
  tokenCancelled := false
  pending := ids.dedup
  textPending := textId.isSome
  opened := []
  phase := .accepting
  saved := []
  placed := []

def stop (r : Receive) (e : Ended) : Receive := { r with phase := .ended (.error e) }

def network (message : String) : Ended := .failed ⟨.network, message⟩

def awaits (r : Receive) : Bool := r.pending ≠ [] || r.textPending

/-- `receive_chunk`, for a file that is waited for. -/
def receiveChunk (r : Receive) (id : ℤ) (last : Bool) (inbox : Inbox) : Option Receive :=
  if id ∉ r.opened ∧ (maxOpenFiles ≤ r.opened.length ∨ r.files[r.ids.idxOf id]? = none) then
    some (r.stop protocolError)
  else match inbox with
    | .beginFails e => if id ∈ r.opened then none else some (r.stop (.failed e))
    | .writeFails e => some (r.stop (if r.tokenCancelled then .cancelledHere else .failed e))
    | .written => if last then none else some { r with opened := r.opened.insert id }
    | .commitFails e => if last then some (r.stop (.failed e)) else none
    | .committed name =>
      if last then
        some { r with
          opened := r.opened.erase id
          pending := r.pending.erase id
          saved := r.saved ++ [name]
          placed := r.placed ++ [name] }
      else none

def process (r : Receive) : Act → Option Receive
  | .hungUp => some (r.stop (network "the sender hung up"))
  | .timedOut => some (r.stop (network "the sender stopped sending"))
  | .badFrame => some (r.stop (if r.tokenCancelled then .cancelledHere else protocolError))
  | .quiet => some r
  | .chunk id last inbox =>
    if id ∈ r.pending then r.receiveChunk id last inbox else some (r.stop protocolError)
  | .text id =>
    if r.textPending ∧ r.textId = some id then some { r with textPending := false }
    else some (r.stop protocolError)
  | .cancelled => some (r.stop .cancelledThere)
  | .disconnected => some (r.stop (network "the sender hung up before the end"))
  | .introduction => some (r.stop protocolError)
  | _ => none

def step (r : Receive) (a : Act) : Option Receive :=
  match r.phase, a with
  | .ended _, _ => none
  | _, .cancel => some { r with tokenCancelled := true }
  | .accepting, .sent => some { r with phase := .waiting }
  | .accepting, .fail e => some (r.stop (.failed e))
  | .waiting, .loopEnd => if r.awaits then none else some { r with phase := .goodbye }
  | .waiting, .seeCancel =>
    if r.awaits ∧ r.tokenCancelled then some (r.stop .cancelledHere) else none
  | .waiting, a => if r.awaits then r.process a else none
  -- A goodbye that is lost costs nothing.
  | .goodbye, .sent => some { r with phase := .ended (.ok r.saved) }
  | _, _ => none

/-- The end of `connection`: the outcome, and the saved names of the event. -/
def report (cancelled : Bool) : Except Ended (List Str) → Outcome × List Str
  | .ok saved => (.done, saved)
  | .error .cancelledHere => (.cancelled, [])
  | .error .cancelledThere => (.cancelled, [])
  | .error (.failed e) => Transfer.finishWith cancelled (.error e)

theorem report_snd (cancelled : Bool) (result : Except Ended (List Str)) :
    (report cancelled result).2 = Transfer.savedOf result := by
  cases result with
  | ok saved => rfl
  | error e =>
    cases e with
    | cancelledHere => rfl
    | cancelledThere => rfl
    | failed e => exact Transfer.finishWith_snd cancelled (.error e)

def result (r : Receive) : Option (Except Ended (List Str)) :=
  match r.phase with
  | .ended result => some result
  | _ => none

def receiver : Transfer.Receiver Receive Act Ended := ⟨step, placed, result⟩

section Moves

variable {r r' : Receive} {a : Act}

/-- What a step does to the files that are there. -/
inductive Move (r : Receive) : Receive → Prop
  | stop (e : Ended) : Move r (r.stop e)
  | on {r' : Receive} (hsaved : r'.saved = r.saved) (hplaced : r'.placed = r.placed)
      (hres : r'.result = none) : Move r r'
  | commit {r' : Receive} (name : Str) (hsaved : r'.saved = r.saved ++ [name])
      (hplaced : r'.placed = r.placed ++ [name]) (hres : r'.result = none) : Move r r'
  | done : Move r { r with phase := .ended (.ok r.saved) }

theorem move_receiveChunk {id : ℤ} {last : Bool} {inbox : Inbox} (hp : r.phase = .waiting)
    (h : r.receiveChunk id last inbox = some r') : Move r r' := by
  unfold receiveChunk at h
  split at h
  · exact Option.some.inj h ▸ .stop _
  · cases inbox with
    | beginFails e =>
      simp only at h
      split_ifs at h
      exact Option.some.inj h ▸ .stop _
    | writeFails e => exact Option.some.inj h ▸ .stop _
    | written =>
      simp only at h
      split_ifs at h
      exact Option.some.inj h ▸ .on rfl rfl (by simp [result, hp])
    | commitFails e =>
      simp only at h
      split_ifs at h
      exact Option.some.inj h ▸ .stop _
    | committed name =>
      simp only at h
      split_ifs at h
      exact Option.some.inj h ▸ .commit name rfl rfl (by simp [result, hp])

theorem move_process (hp : r.phase = .waiting) (h : r.process a = some r') : Move r r' := by
  cases a with
  | hungUp | timedOut | badFrame | cancelled | disconnected | introduction =>
    exact Option.some.inj h ▸ .stop _
  | quiet => exact Option.some.inj h ▸ .on rfl rfl (by simp [result, hp])
  | chunk id last inbox =>
    simp only [process] at h
    split_ifs at h
    · exact move_receiveChunk hp h
    · exact Option.some.inj h ▸ .stop _
  | text id =>
    simp only [process] at h
    split_ifs at h
    · exact Option.some.inj h ▸ .on rfl rfl (by simp [result, hp])
    · exact Option.some.inj h ▸ .stop _
  | sent | fail | cancel | seeCancel | loopEnd => cases h

theorem move_of_step (h : step r a = some r') : Move r r' := by
  unfold step at h
  split at h
  · cases h
  · rename_i hrunning
    refine Option.some.inj h ▸ .on rfl rfl ?_
    unfold result
    split
    · exact (hrunning _ ‹_›).elim
    · rfl
  · exact Option.some.inj h ▸ .on rfl rfl rfl
  · exact Option.some.inj h ▸ .stop _
  · split_ifs at h
    exact Option.some.inj h ▸ .on rfl rfl rfl
  · split_ifs at h
    exact Option.some.inj h ▸ .stop _
  · split_ifs at h
    exact move_process ‹_› h
  · exact Option.some.inj h ▸ .done
  · cases h

theorem lawful : receiver.Lawful fun r => r.saved = r.placed ∧
    ∀ saved, r.result = some (.ok saved) → saved = r.saved where
  step r a r' hr hs := by
    obtain ⟨hsame, -⟩ := hr
    cases move_of_step hs with
    | stop e => exact ⟨hsame, by simp [result, stop]⟩
    | on hsaved hplaced hres => exact ⟨by rw [hsaved, hplaced, hsame], by simp [hres]⟩
    | commit name hsaved hplaced hres => exact ⟨by rw [hsaved, hplaced, hsame], by simp [hres]⟩
    | done => exact ⟨hsame, by simp [result]⟩
  ok r saved hr hres := (hr.2 saved hres).trans hr.1
  error r a r' e _ hs hres := by
    cases move_of_step hs with
    | stop e => rfl
    | on _ hplaced _ => exact hplaced
    | commit name _ _ hnone => cases hnone.symm.trans hres
    | done => cases hres

end Moves

end Receive

end Sukkula.QuickShare
