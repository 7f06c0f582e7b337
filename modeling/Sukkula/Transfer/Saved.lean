import Sukkula.Croc.Receive
import Sukkula.LocalSend.Slot
import Sukkula.QuickShare.Receive
import Sukkula.Wormhole.Receive

/-! # The saved names of a transfer

The saved names of the event with which a receive ends, against the names under
which it placed files. Over LocalSend they are the same in every run. Over the
three others the names travel in the result of the receive, which an error or a
cancel replaces; they are the same in every run where none comes after a file was
placed.
-/

namespace Sukkula.Croc.Receive

open Transfer
open LocalSend (ErrorInfo)

variable {ses : Session} {text : Bool} {rooms : ℕ} {r : Receive}

def result (r : Receive) : Option (Except ErrorInfo (List Str)) :=
  match r.phase with
  | .ended result => some result
  | _ => none

def receiver (ses : Session) (text : Bool) (rooms : ℕ) : Receiver Receive Act ErrorInfo :=
  ⟨step ses text rooms, fun r => r.placed.map Placed.name, result⟩

theorem result_eq_some {res : Except ErrorInfo (List Str)} :
    r.result = some res ↔ r.phase = .ended res := by
  unfold result
  split
  · rename_i hp
    simp [hp]
  · rename_i hp
    exact ⟨nofun, fun h => (hp res h).elim⟩

theorem placed_merged (theirs : Offered) (m : Merge) : (r.merged theirs m).placed = r.placed := by
  unfold merged
  split
  · rfl
  · rfl
  · split_ifs <;> rfl

theorem lawful : (receiver ses text rooms).Lawful (Sound ses rooms) where
  step r a r' hr hs := hr.of_move (move_of_step hs)
  ok r saved hr hres := by
    rw [hr.done saved (result_eq_some.mp hres)]
    exact hr.saved
  error r a r' e hr hs hres := by
    cases move_of_step hs with
    | stop | stay | skip | empty | request | start | closed | placing | shown | goodbye | done =>
      rfl
    | merge => exact congrArg (List.map Placed.name) (placed_merged _ _)
    | placeEmpty => cases hres
    | place => cases hres

end Sukkula.Croc.Receive

namespace Sukkula.Transfer

open Transition
open LocalSend (Server Commit)

/-- The saved names of the event are the names under which files were placed: over LocalSend always,
over croc, Quick Share and Magic Wormhole where no step ends a receive in an error or a cancel once
it has placed a file. -/
theorem saved_as_placed (cancelled : Bool) :
    (∀ accepting as s, exec Server.step (Server.new accepting) as = some s →
      ∀ i x out saved, s.session i = some x → x.phase = .finished out saved →
        saved = x.commits.map Commit.name) ∧
    (∀ ses text rooms files as r, exec (Croc.Receive.step ses text rooms) (.start files) as =
      some r → Along (Croc.Receive.step ses text rooms) (Croc.Receive.receiver ses text rooms).Keeps
        (.start files) as →
      ∀ res, r.phase = .ended res → (finishWith cancelled res).2 = r.placed.map Croc.Placed.name) ∧
    (∀ ids files textId as r, exec QuickShare.Receive.step (.start ids files textId) as = some r →
      Along QuickShare.Receive.step QuickShare.Receive.receiver.Keeps (.start ids files textId) as →
      ∀ res, r.phase = .ended res → (QuickShare.Receive.report cancelled res).2 = r.placed) ∧
    ∀ text files as r, exec Wormhole.Receive.step (.start text files) as = some r →
      Along Wormhole.Receive.step Wormhole.Receive.receiver.Keeps (.start text files) as →
      ∀ res, r.phase = .ended res → (finishWith cancelled res).2 = r.placed := by
  refine ⟨?_, ?_, ?_, ?_⟩
  · intro accepting as s hrun i x out saved hx hp
    have hinv := Server.Inv.of_exec hrun
    obtain ⟨o, ho, -⟩ := hinv.origin i x hx
    exact (hinv.finished hx ho hp).2
  · intro ses text rooms files as r hrun hkeeps res hres
    rw [finishWith_snd]
    exact Croc.Receive.lawful.savedOf_eq (.start files) rfl hkeeps hrun
      (Croc.Receive.result_eq_some.mpr hres)
  · intro ids files textId as r hrun hkeeps res hres
    rw [QuickShare.Receive.report_snd]
    have hr : r.result = some res := by simp [QuickShare.Receive.result, hres]
    have hstart : ∀ saved, (QuickShare.Receive.start ids files textId).result = some (.ok saved) →
        saved = [] := by
      intro saved hsaved
      cases hsaved
    exact QuickShare.Receive.lawful.savedOf_eq ⟨rfl, hstart⟩ rfl hkeeps hrun hr
  · intro text files as r hrun hkeeps res hres
    rw [finishWith_snd]
    have hr : r.result = some res := by simp [Wormhole.Receive.result, hres]
    have hstart : (Wormhole.Receive.start text files).Placed := rfl
    exact Wormhole.Receive.lawful.savedOf_eq hstart rfl hkeeps hrun hr

def twoFiles : List (Croc.Offered × Offer.OfferFile) :=
  [(⟨0, 0, none, Croc.Receive.zero_lt⟩, ⟨.ofRaw ['a'], 0, none, none⟩),
    (⟨1, 0, none, Croc.Receive.zero_lt⟩, ⟨.ofRaw ['b'], 0, none, none⟩)]

theorem Receiver.keeps_of {σ α ε : Type} {r : Receiver σ α ε} {s t : σ} {a : α}
    (h : r.step s a = some t) (ht : ∀ e, r.result t ≠ some (.error e)) : r.Keeps s a := by
  intro _ s' e hs'
  rw [← Option.some.inj (h.symm.trans hs')]
  exact ht e

/-- Both are placed, and both are reported. -/
theorem saved_as_placed_both :
    ∃ r, exec (Croc.Receive.step Croc.Receive.plain false 1) (.start twoFiles)
      [.begin, .commit ['a'], .begin, .commit ['b'], .skip, .sent] = some r ∧
    r.phase = .ended (.ok [['a'], ['b']]) ∧
    (finishWith false (.ok [['a'], ['b']])).2 = r.placed.map Croc.Placed.name := by
  have hkeeps : Along (Croc.Receive.step Croc.Receive.plain false 1)
      (Croc.Receive.receiver Croc.Receive.plain false 1).Keeps (.start twoFiles)
      [.begin, .commit ['a'], .begin, .commit ['b'], .skip, .sent] := by
    apply Along.cons (Receiver.keeps_of rfl nofun) rfl
    apply Along.cons (Receiver.keeps_of rfl nofun) rfl
    apply Along.cons (Receiver.keeps_of rfl nofun) rfl
    apply Along.cons (Receiver.keeps_of rfl nofun) rfl
    apply Along.cons (Receiver.keeps_of rfl nofun) rfl
    apply Along.cons (Receiver.keeps_of rfl nofun) rfl
    exact trivial
  exact ⟨_, rfl, rfl, (saved_as_placed false).2.1 Croc.Receive.plain false 1 twoFiles
    [.begin, .commit ['a'], .begin, .commit ['b'], .skip, .sent] _ rfl hkeeps _ rfl⟩

/-- The first of them is placed when the transfer is cancelled, and is not reported. -/
theorem placed_unreported : ¬ ∀ ses text rooms files as r,
    exec (Croc.Receive.step ses text rooms) (.start files) as = some r →
      ∀ cancelled res, r.phase = .ended res →
        (finishWith cancelled res).2 = r.placed.map Croc.Placed.name := by
  intro h
  have hsaved :=
    h Croc.Receive.plain false 1 twoFiles [.begin, .commit ['a'], .cancel] _ rfl true _ rfl
  cases hsaved

end Sukkula.Transfer
