import Sukkula.Transfer.Report

/-! # Receiving over Magic Wormhole, after the yes

`after_accept`: one text, or one file that comes in records over the transit
connection. The whole of it can be cancelled at every wait, and a panic of the
library is caught around it; both drop what it was going to return.
-/

namespace Sukkula.Wormhole

open Offer (OfferFile)
open LocalSend (ErrorInfo cancelled)

def maxEmptyRecords : ℕ := 16

def protocol (what : String) : ErrorInfo := ⟨.network, what⟩

def panicked : ErrorInfo := ⟨.internal, "the wormhole library failed"⟩

namespace Receive

inductive Phase
  | start
  | textAck
  | connecting (file : OfferFile)
  -- Records come: how many bytes are still to come, and how many were empty.
  | receiving (remaining empty : ℕ)
  | acking (name : Str)
  | closing (name : Str)
  | ended (result : Except ErrorInfo (List Str))
  deriving DecidableEq

inductive Act
  | look
  -- The connection is there, and the inbox begins the file.
  | begin
  | record (length : ℕ)
  | commit (name : Str)
  -- The ack, or the end of the connection, whether it arrives or not.
  | sent
  | fail (error : ErrorInfo)
  | cancel
  | panic
  deriving DecidableEq, Repr

end Receive

structure Receive where
  text : Option Str
  files : List OfferFile
  phase : Receive.Phase
  placed : List Str
  deriving DecidableEq

namespace Receive

def start (text : Option Str) (files : List OfferFile) : Receive := ⟨text, files, .start, []⟩

def goTo (r : Receive) (phase : Phase) : Receive := { r with phase }

def stop (r : Receive) (e : ErrorInfo) : Receive := r.goTo (.ended (.error e))

def record (r : Receive) (remaining empty length : ℕ) : Receive :=
  if length = 0 then
    if maxEmptyRecords < empty + 1 then r.stop (protocol "the sender sent empty records")
    else r.goTo (.receiving remaining (empty + 1))
  else if remaining < length then r.stop (protocol "the sender sent more than it offered")
  else r.goTo (.receiving (remaining - length) empty)

def step (r : Receive) (a : Act) : Option Receive :=
  match r.phase, a with
  | .ended _, _ => none
  | _, .cancel => some (r.stop cancelled)
  | _, .panic => some (r.stop panicked)
  | .start, .look =>
    match r.text, r.files with
    | some _, [] => some (r.goTo .textAck)
    | none, file :: _ => some (r.goTo (.connecting file))
    | _, _ => some (r.stop (protocol "the offer is neither one file nor one text"))
  | .textAck, .sent => some (r.goTo (.ended (.ok [])))
  | .connecting file, .begin => some (r.goTo (.receiving file.size 0))
  | .receiving remaining empty, .record length =>
    if remaining = 0 then none else some (r.record remaining empty length)
  | .receiving 0 _, .commit name =>
    some { r with phase := .acking name, placed := r.placed ++ [name] }
  | .acking name, .sent => some (r.goTo (.closing name))
  | .closing name, .sent => some (r.goTo (.ended (.ok [name])))
  | .connecting _, .fail e | .receiving _ _, .fail e => some (r.stop e)
  | _, _ => none

def result (r : Receive) : Option (Except ErrorInfo (List Str)) :=
  match r.phase with
  | .ended result => some result
  | _ => none

def receiver : Transfer.Receiver Receive Act ErrorInfo := ⟨step, placed, result⟩

/-- The file is placed where the receive says so. -/
def Placed (r : Receive) : Prop :=
  match r.phase with
  | .acking name | .closing name => r.placed = [name]
  | .ended (.ok saved) => r.placed = saved
  | .ended (.error _) => True
  | _ => r.placed = []

section Moves

variable {r r' : Receive} {a : Act}

theorem record_cases (r : Receive) (remaining empty length : ℕ) :
    (∃ e, r.record remaining empty length = r.stop e) ∨
      ∃ remaining' empty', r.record remaining empty length =
      r.goTo (.receiving remaining' empty') := by
  unfold record
  split_ifs
  · exact Or.inl ⟨_, rfl⟩
  · exact Or.inr ⟨_, _, rfl⟩
  · exact Or.inl ⟨_, rfl⟩
  · exact Or.inr ⟨_, _, rfl⟩

inductive Move (r : Receive) : Receive → Prop
  | on (phase : Phase) (hplaced : (r.goTo phase).Placed) : Move r (r.goTo phase)
  | commit (name : Str) (hnone : r.placed = []) :
      Move r { r with phase := .acking name, placed := r.placed ++ [name] }

theorem move_look (hp : r.phase = .start) (hr : r.Placed) (h : step r .look = some r') :
    Move r r' := by
  have hnone : r.placed = [] := by
    unfold Placed at hr
    rwa [hp] at hr
  unfold step at h
  rw [hp] at h
  simp only at h
  split at h
  · exact Option.some.inj h ▸ .on _ hnone
  · exact Option.some.inj h ▸ .on _ hnone
  · exact Option.some.inj h ▸ .on _ trivial

theorem move_of_step (hr : r.Placed) (h : step r a = some r') : Move r r' := by
  have hplaced := hr
  unfold Placed at hplaced
  cases hp : r.phase with
  | ended res => simp [step, hp] at h
  | start =>
    simp only [hp] at hplaced
    cases a with
    | look => exact move_look hp hr h
    | cancel | panic =>
      simp only [step, hp] at h
      exact Option.some.inj h ▸ .on _ trivial
    | begin | record | commit | sent | fail => simp [step, hp] at h
  | textAck =>
    simp only [hp] at hplaced
    cases a with
    | sent =>
      simp only [step, hp] at h
      exact Option.some.inj h ▸ .on _ hplaced
    | cancel | panic =>
      simp only [step, hp] at h
      exact Option.some.inj h ▸ .on _ trivial
    | look | begin | record | commit | fail => simp [step, hp] at h
  | connecting file =>
    simp only [hp] at hplaced
    cases a with
    | begin =>
      simp only [step, hp] at h
      exact Option.some.inj h ▸ .on _ hplaced
    | fail | cancel | panic =>
      simp only [step, hp] at h
      exact Option.some.inj h ▸ .on _ trivial
    | look | record | commit | sent => simp [step, hp] at h
  | receiving remaining empty =>
    simp only [hp] at hplaced
    cases a with
    | record length =>
      simp only [step, hp] at h
      split_ifs at h
      obtain ⟨e, he⟩ | ⟨remaining', empty', he⟩ := record_cases r remaining empty length
      · rw [← Option.some.inj h, he]
        exact .on _ trivial
      · rw [← Option.some.inj h, he]
        exact .on _ hplaced
    | commit name =>
      cases remaining with
      | zero =>
        simp only [step, hp] at h
        exact Option.some.inj h ▸ .commit name hplaced
      | succ n => simp [step, hp] at h
    | fail | cancel | panic =>
      simp only [step, hp] at h
      exact Option.some.inj h ▸ .on _ trivial
    | look | begin | sent => simp [step, hp] at h
  | acking name =>
    simp only [hp] at hplaced
    cases a with
    | sent =>
      simp only [step, hp] at h
      exact Option.some.inj h ▸ .on _ hplaced
    | cancel | panic =>
      simp only [step, hp] at h
      exact Option.some.inj h ▸ .on _ trivial
    | look | begin | record | commit | fail => simp [step, hp] at h
  | closing name =>
    simp only [hp] at hplaced
    cases a with
    | sent =>
      simp only [step, hp] at h
      exact Option.some.inj h ▸ .on _ hplaced
    | cancel | panic =>
      simp only [step, hp] at h
      exact Option.some.inj h ▸ .on _ trivial
    | look | begin | record | commit | fail => simp [step, hp] at h

theorem lawful : receiver.Lawful Placed where
  step r a r' hr hs := by
    cases move_of_step hr hs with
    | on phase hplaced => exact hplaced
    | commit name hnone =>
      change r.placed ++ [name] = [name]
      rw [hnone]
      rfl
  ok r saved hr hres := by
    have hp : r.phase = .ended (.ok saved) := by
      change r.result = _ at hres
      unfold result at hres
      split at hres
      · rename_i hp
        rw [hp, Option.some.inj hres]
      · cases hres
    unfold Placed at hr
    rw [hp] at hr
    exact hr.symm
  error r a r' e hr hs hres := by
    cases move_of_step hr hs with
    | on => rfl
    | commit name hnone => cases hres

end Moves

end Receive

end Sukkula.Wormhole
