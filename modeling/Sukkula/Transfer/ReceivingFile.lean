import Sukkula.Inbox.Incoming
import Sukkula.LocalSend.Session

/-! # A file being received

`ReceivingFile`: the inbox's `Incoming` with the transfer's cancellation. What
the file system makes of a call is an answer that comes from outside; the checks
of the declared size, and that a file spoiled once is never placed, are made
here. The account of an `Incoming` that is kept so is the one the inbox's own
code keeps.
-/

namespace Sukkula

/-- What a program may end with, whatever its calls are answered. -/
inductive Prog.Returns {C : Type} {Ans : C → Type} {α : Type} : Prog Ans α → α → Prop
  | ret (a : α) : Returns (.ret a) a
  | call {c : C} {k : Ans c → Prog Ans α} {a : α} (r : Ans c) (h : Returns (k r) a) :
  Returns (.call c k) a

namespace Prog.Returns

variable {C : Type} {Ans : C → Type} {α β : Type} {p : Prog Ans α} {f : α → Prog Ans β}
  {a : α} {b : β}

theorem ret_inj {a' : α} (h : Returns (.ret a : Prog Ans α) a') : a' = a := by
  cases h
  rfl

theorem of_bind (h : Returns (p >>= f) b) : ∃ a, Returns p a ∧ Returns (f a) b := by
  induction p with
  | ret a => exact ⟨a, .ret a, h⟩
  | call c k ih =>
    cases h with
    | call r h =>
      obtain ⟨a, ha, hb⟩ := ih r h
      exact ⟨a, .call r ha, hb⟩

/-- Early returns: the first part returned a value, or its error is the whole's. -/
theorem of_bind_except {ε : Type} {x : ExceptT ε (Prog Ans) α} {f : α → ExceptT ε (Prog Ans) β}
    {r : Except ε β} (h : Returns (x >>= f).run r) :
    (∃ a, Returns x.run (.ok a) ∧ Returns (f a).run r) ∨ ∃ e, Returns x.run (.error e) ∧
    r = .error e := by
  obtain ⟨o, ho, hr⟩ := of_bind (f := ExceptT.bindCont f) h
  cases o with
  | ok a => exact Or.inl ⟨a, ho, hr⟩
  | error e => exact Or.inr ⟨e, ho, ret_inj hr⟩

end Prog.Returns

end Sukkula

namespace Sukkula.Transfer

open Offer (OfferFile)
open LocalSend (ErrorInfo)

/-- `InboxError::Overflow`, as the UI shows it. -/
def overflow : ErrorInfo := ⟨.tooLarge, "the sender sent more than the declared size"⟩

/-- `InboxError::Truncated`, as the UI shows it. -/
def truncated (got declared : ℕ) : ErrorInfo :=
  ⟨.network, s!"the file ended after {got} of {declared} bytes"⟩

/-- The error of a file that failed earlier, as the UI shows it. -/
def spoiled : ErrorInfo := ⟨.storage, "i/o error: an earlier write to this file failed"⟩

structure ReceivingFile where
  file : OfferFile
  written : ℕ
  body : Bytes
  failed : Bool
  deriving DecidableEq

namespace ReceivingFile

/-- `Ctx::begin_file` -/
def new (file : OfferFile) : ReceivingFile := ⟨file, 0, [], false⟩

/-- Appends `chunk`, if the disk does. -/
def write (f : ReceivingFile) (cancelled : Bool) (chunk : Bytes) (disk : Except ErrorInfo Unit) :
    Except ErrorInfo Unit × ReceivingFile :=
  if cancelled then (.error LocalSend.cancelled, f)
  else if f.failed then (.error spoiled, f)
  else if f.file.size < f.written + chunk.length then (.error overflow, { f with failed := true })
  else match disk with
    | .ok () => (.ok (), { f with written := f.written + chunk.length, body := f.body ++ chunk })
    -- Part of the chunk may be on the disk.
    | .error e => (.error e, { f with failed := true })

/-- Checks the size and places the file, if the disk does; the name it was saved under. -/
def commit (f : ReceivingFile) (cancelled : Bool) (disk : Except ErrorInfo Str) :
    Except ErrorInfo Str :=
  if cancelled then .error LocalSend.cancelled
  else if f.failed then .error spoiled
  else if f.written ≠ f.file.size then .error (truncated f.written f.file.size)
  else disk

/-- The checks of `commit` pass, and it goes on to place the file. -/
def placeable (f : ReceivingFile) (cancelled : Bool) : Bool :=
  !cancelled && !f.failed && f.written = f.file.size

/-- What was written is what was counted, and no more than was declared. -/
structure Sound (f : ReceivingFile) : Prop where
  failed : f.failed = false
  written : f.written = f.body.length
  bound : f.written ≤ f.file.size

variable {f f' : ReceivingFile} {c : Bool} {chunk : Bytes}

theorem Sound.new (file : OfferFile) : Sound (new file) := ⟨rfl, rfl, Nat.zero_le _⟩

theorem write_ok {disk : Except ErrorInfo Unit} (h : f.write c chunk disk = (.ok (), f')) :
    f' = { f with written := f.written + chunk.length, body := f.body ++ chunk } ∧
      f.written + chunk.length ≤ f.file.size := by
  unfold write at h
  split_ifs at h with hc hf hsize
  · cases h
  · cases h
  · cases h
  · cases disk with
    | error e => cases h
    | ok u =>
      cases h
      exact ⟨rfl, Nat.not_lt.mp hsize⟩

theorem Sound.write_ok {disk : Except ErrorInfo Unit} (hs : Sound f)
    (h : f.write c chunk disk = (.ok (), f')) : Sound f' := by
  obtain ⟨rfl, hle⟩ := ReceivingFile.write_ok h
  refine ⟨hs.failed, ?_, hle⟩
  simp only [hs.written, List.length_append]

theorem Sound.commit_ok {disk : Except ErrorInfo Str} {name : Str} (hs : Sound f)
    (h : f.commit c disk = .ok name) : f.body.length = f.file.size := by
  unfold commit at h
  split_ifs at h with hc hf hsize
  rw [← hs.written]
  exact not_not.mp hsize

section Inbox

open Inbox

variable {Digest : Type} {inc inc' : Incoming Digest}

/-- The account of an `Incoming`. -/
structure Of (f : ReceivingFile) (inc : Incoming Digest) : Prop where
  file : inc.file.isSome
  declared : inc.declared = f.file.size
  written : inc.written = f.written
  hasher : inc.hasher = f.body
  failed : inc.failed = f.failed

theorem of_beginFile {staging : Staging} {file : OfferFile} {sha256 : Option Digest}
    (h : (beginFile staging file.name file.size sha256).run.Returns (.ok inc)) :
    (new file).Of inc := by
  unfold beginFile at h
  split_ifs at h with hsize
  · cases h
  obtain ⟨-, -, h⟩ | ⟨e, -, he⟩ := Prog.Returns.of_bind_except h
  swap; · cases he
  obtain ⟨name, -, h⟩ | ⟨e, -, he⟩ := Prog.Returns.of_bind_except h
  swap; · cases he
  obtain ⟨fd, -, h⟩ | ⟨e, -, he⟩ := Prog.Returns.of_bind_except h
  swap; · cases he
  cases h with
  | call r h =>
    cases r with
    | ok st =>
      cases h
      exact ⟨rfl, rfl, rfl, rfl, rfl⟩
    | error e =>
      cases h with
      | call r h => cases h

theorem Of.write {r : Except (Stop InboxError) Unit} (hof : f.Of inc)
    (h : (inc.write chunk).Returns (r, inc')) :
    ∃ disk, (f.write false chunk disk).2.Of inc' ∧
    (r = .ok () ↔ (f.write false chunk disk).1 = .ok ()) := by
  obtain ⟨fd, hfd⟩ := Option.isSome_iff_exists.mp hof.file
  unfold Incoming.write at h
  unfold ReceivingFile.write
  rw [hof.failed, hof.declared, hof.written, hfd] at h
  simp only [Bool.false_eq_true, if_false]
  split_ifs at h ⊢ with hf hsize
  · cases h
    exact ⟨.ok (), hof, by simp [Inbox.spoiled]⟩
  · cases h
    exact ⟨.ok (), ⟨rfl, rfl, rfl, hof.hasher, rfl⟩, by simp⟩
  · cases h with
    | call a h =>
      cases a with
      | ok u =>
        cases h
        refine ⟨.ok (), ⟨rfl, rfl, rfl, ?_, rfl⟩, by simp⟩
        simp only [hof.hasher]
      | error e =>
        cases h
        exact ⟨.error spoiled, ⟨rfl, rfl, rfl, hof.hasher, rfl⟩, by simp⟩

variable [DecidableEq Digest] {sha256 : Bytes → Digest}

theorem of_verify (h : (inc.verify sha256).run.Returns (.ok ())) :
    inc.failed = false ∧ inc.written = inc.declared := by
  unfold Incoming.verify at h
  split_ifs at h with hf hsize
  · cases h
  · cases h
  · exact ⟨by simpa using hf, not_not.mp hsize⟩

theorem Of.commit {saved : Saved} (hof : f.Of inc)
    (h : (inc.commit sha256).Returns (.ok saved, inc')) :
    f.commit false (.ok saved.name.val) = .ok saved.name.val := by
  obtain ⟨r, hr, h⟩ := Prog.Returns.of_bind h
  cases r with
  | error e => cases h
  | ok u =>
    obtain ⟨hf, hsize⟩ := of_verify hr
    rw [hof.failed] at hf
    rw [hof.written, hof.declared] at hsize
    simp [ReceivingFile.commit, hf, hsize]

end Inbox

end ReceivingFile

end Sukkula.Transfer
