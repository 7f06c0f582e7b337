import Mathlib.Algebra.Order.Group.Nat
import Sukkula.LocalSend.Session

/-! # What obexd says of a transfer

obexd tells of an Object Push send by replies and by `PropertiesChanged` signals,
and either carries a set of properties as obexd likes it: any of them, in any
order, of any type. `readUpdate` takes from it what is acted on and `Watch` keeps
what the signals say until the loop comes round. `FileState` counts the bytes of
one file from that. The amounts it reports on the handle are written down.
-/

namespace Sukkula.Bluetooth

open Str
open LocalSend (ErrorInfo cancelled)

def obexName : Str := "org.bluez.obex".toList

def transferIface : Str := "org.bluez.obex.Transfer1".toList

def dbusName : Str := "org.freedesktop.DBus".toList

def propertiesIface : Str := "org.freedesktop.DBus.Properties".toList

def maxObexPacket : ℕ := 65535

/-- The most updates kept between two turns of the loop. -/
def maxUpdates : ℕ := 64

/-- The most entries of an `a{sv}` that are looked at. -/
def maxProperties : ℕ := 64

section Errors

inductive BusError
  | unreachable
  | disconnected
  | timeout
  | cancelled
  | remote (name : Str)
  | malformed
  deriving DecidableEq, Repr

/-- The error names that say that nobody is there to answer. -/
def absent : List Str :=
  ["org.freedesktop.DBus.Error.ServiceUnknown".toList,
    "org.freedesktop.DBus.Error.NameHasNoOwner".toList,
    "org.freedesktop.DBus.Error.AccessDenied".toList,
    "org.freedesktop.DBus.Error.UnknownObject".toList,
    "org.freedesktop.DBus.Error.UnknownInterface".toList,
    "org.freedesktop.DBus.Error.UnknownMethod".toList]

def BusError.isAbsent : BusError → Bool
  | .unreachable | .disconnected => true
  | .remote name => name ∈ absent ∨ "org.freedesktop.DBus.Error.Spawn.".toList.isPrefixOf name
  | .timeout | .cancelled | .malformed => false

/-- The object that was called exists no longer. -/
def BusError.isUnknownObject (e : BusError) : Bool :=
  e = .remote "org.freedesktop.DBus.Error.UnknownObject".toList

def changed : ErrorInfo := ⟨.badFile, "the file changed after it was chosen"⟩

def malformed : ErrorInfo := ⟨.unavailable, "the Bluetooth file service gave an unexpected reply"⟩

/-- obexd reports every failure as the same `error`: before a second packet has gone it is likely a
refusal. -/
def transferError (sent : ℕ) : ErrorInfo :=
  if sent ≤ maxObexPacket then ⟨.refused, "the device did not accept the file"⟩
  else ⟨.network, "the transfer was interrupted"⟩

/-- What a failure to reach or use obexd is shown as; `stop` is whether the send is cancelled. -/
def serviceError (e : BusError) (stop : Bool) : ErrorInfo :=
  if e = .cancelled ∨ stop then cancelled
  else if e.isAbsent then ⟨.unavailable, "the Bluetooth file service is not available"⟩
  else match e with
    | .timeout => ⟨.unavailable, "the Bluetooth file service did not answer"⟩
    | .remote name =>
      if "org.freedesktop.DBus.Error.".toList.isPrefixOf name then
        ⟨.unavailable, "the Bluetooth file service did not answer"⟩
      else ⟨.unavailable, "the Bluetooth file service refused the request"⟩
    | .unreachable | .disconnected | .cancelled | .malformed => malformed

/-- What a failed `SendFile` is shown as. -/
def sendFileError (e : BusError) (stop : Bool) : ErrorInfo :=
  match e with
  | .remote name =>
    if name = "org.bluez.obex.Error.InvalidArguments".toList then
      ⟨.badFile, "the file cannot be read"⟩
    else if "org.bluez.obex.Error.".toList.isPrefixOf name then
      ⟨.network, "the device refused the file"⟩
    else serviceError e stop
  | _ => serviceError e stop

end Errors

section Updates

inductive Status | queued | active | suspended | complete | error
  deriving DecidableEq, Repr

def Status.parse (s : Str) : Option Status :=
  if s = "queued".toList then some .queued
  else if s = "active".toList then some .active
  else if s = "suspended".toList then some .suspended
  else if s = "complete".toList then some .complete
  else if s = "error".toList then some .error
  else none

inductive Variant
  | string (s : Str)
  | uint64 (n : ℕ)
  | other
  deriving DecidableEq, Repr

def Variant.string? : Variant → Option Str
  | .string s => some s
  | _ => none

def Variant.uint64? : Variant → Option ℕ
  | .uint64 n => some n
  | _ => none

/-- An entry of a dictionary; `none` where it is not a string with a variant. -/
abbrev Property := Option (Str × Variant)

/-- Goes through the properties of an `a{sv}`, at most `maxProperties` of its entries. -/
def forEachProperty {α : Type*} (f : α → Str → Variant → α) (init : α) (dict : List Property) : α :=
  (dict.take maxProperties).foldl (fun a entry => entry.elim a fun (key, value) =>
    f a key value) init

/-- The part of a property set that is acted on. -/
structure Update where
  status : Option Status := none
  transferred : Option ℕ := none
  size : Option ℕ := none
  deriving DecidableEq, Repr

/-- What one property says. The first value that can be read counts. -/
def Update.read (u : Update) (key : Str) (value : Variant) : Update :=
  if key = "Status".toList ∧ u.status = none then
    { u with status := value.string?.bind Status.parse }
  else if key = "Transferred".toList ∧ u.transferred = none then
    { u with transferred := value.uint64? }
  else if key = "Size".toList ∧ u.size = none then { u with size := value.uint64? }
  else u

def readUpdate (props : List Property) : Update := forEachProperty Update.read {} props

/-- What an update says agrees with the size that was checked. -/
def Update.Fits (u : Update) (size : ℕ) : Prop :=
  (∀ n ∈ u.size, n = size) ∧ ∀ t ∈ u.transferred, t ≤ size

theorem Update.not_fits_iff {u : Update} {size : ℕ} :
    ¬u.Fits size ↔ (∃ n ∈ u.size, n ≠ size) ∨ ∃ t ∈ u.transferred, size < t := by
  rw [Update.Fits, not_and_or]
  push Not
  rfl

end Updates

section Messages

inductive Arg
  | string (s : Str)
  | path (p : Str)
  -- An array, with the dictionary entries it has.
  | array (entries : List Property)
  | other
  deriving DecidableEq, Repr

structure Message where
  sender : Option Str
  path : Option Str
  interface : Option Str
  member : Option Str
  args : List Arg
  deriving DecidableEq, Repr

variable (m : Message)

def Message.string? (i : ℕ) : Option Str :=
  match m.args[i]? with
  | some (.string s) => some s
  | _ => none

def Message.path? (i : ℕ) : Option Str :=
  match m.args[i]? with
  | some (.path p) => some p
  | _ => none

def Message.array? (i : ℕ) : Option (List Property) :=
  match m.args[i]? with
  | some (.array entries) => some entries
  | _ => none

/-- libdbus's own note that the socket closed. -/
def Message.isLocalDisconnect : Bool :=
  m.interface = some "org.freedesktop.DBus.Local".toList ∧ m.member = some "Disconnected".toList

def under (child parent : Str) : Bool :=
  (parent.isPrefixOf? child).any fun rest => 1 < len rest ∧ rest.head? = some '/'

/-- A session obexd made for us, and the unique name of that obexd. -/
structure Session where
  path : Str
  owner : Str
  deriving DecidableEq, Repr

structure Watch where
  owner : Str
  session : Str
  transfer : Option Str
  updates : List (Str × Update)
  ownerLost : Bool
  deriving DecidableEq, Repr

def Watch.new (session : Session) : Watch := ⟨session.owner, session.path, none, [], false⟩

namespace Watch

variable (w : Watch)

/-- Before the reply to `SendFile` anything under the session may be the transfer; after it, only
that. -/
def relevant (path : Str) : Bool :=
  match w.transfer with
  | some t => path = t
  | none => under path w.session

/-- `push_back`, if there is room. -/
def push (path : Str) (u : Update) : Watch :=
  if w.updates.length < maxUpdates then { w with updates := w.updates ++ [(path, u)] } else w

def onSignal (m : Message) : Watch :=
  match m.sender with
  | none => w
  | some sender =>
    if sender = dbusName ∧ m.member = some "NameOwnerChanged".toList then
      if m.string? 0 = some obexName ∧ m.string? 2 ≠ some w.owner then { w with ownerLost := true }
      else w
    else if sender ≠ w.owner ∨ m.member ≠ some "PropertiesChanged".toList ∨
        m.interface ≠ some propertiesIface then w
    else match m.path with
      | none => w
      | some path =>
        if w.relevant path = false then w
        else if m.string? 0 ≠ some transferIface then w
        else match m.array? 1 with
          | none => w
          | some props => w.push path (readUpdate props)

end Watch

end Messages

section Files

structure Timeouts where
  consent : ℕ
  idle : ℕ
  poll : ℕ
  deriving DecidableEq, Repr

inductive Ended
  | complete
  | failed (error : ErrorInfo)
  | abort (error : ErrorInfo)
  deriving DecidableEq, Repr

structure FileState where
  size : ℕ
  sent : ℕ
  status : Option Status
  lastActivity : ℕ
  deriving DecidableEq, Repr

namespace FileState

def new (size now : ℕ) : FileState := ⟨size, 0, none, now⟩

variable (s : FileState) (now : ℕ) (u : Update)

/-- The bytes of an update. A smaller number is ignored, not subtracted. -/
def advance (transferred : Option ℕ) : FileState × List ℕ :=
  match transferred with
  | none => (s, [])
  | some t =>
    if s.sent < t then ({ s with sent := t, lastActivity := now }, [t - s.sent]) else (s, [])

/-- The status of an update. One that is already known says nothing. -/
def turn (status : Status) : FileState × List ℕ × Option Ended :=
  if s.status = some status then (s, [], none)
  else
    let s := { s with status := some status, lastActivity := now }
    match status with
    -- every byte went: the rest is shown
    | .complete => ({ s with sent := s.size }, [s.size - s.sent], some .complete)
    | .error => (s, [], some (.failed (transferError s.sent)))
    | .queued | .active | .suspended => (s, [], none)

/-- An update that fits: its number of bytes, then its status. -/
def heed : FileState × List ℕ × Option Ended :=
  let r := s.advance now u.transferred
  match u.status with
  | none => (r.1, r.2, none)
  | some status =>
    let q := r.1.turn now status
    (q.1, r.2 ++ q.2.1, q.2.2)

/-- Applies one update: the state after it, the amounts it reports, and how the transfer ended if it
is over. -/
def apply : FileState × List ℕ × Option Ended :=
  if u.size.any (· ≠ s.size) then (s, [], some (.abort changed))
  else if u.transferred.any (s.size < ·) then (s, [], some (.abort changed))
  else s.heed now u

def allowance (timeouts : Timeouts) : ℕ :=
  if s.sent ≤ maxObexPacket then max timeouts.consent timeouts.idle else timeouts.idle

/-- Updates in their order, each with what the clock says: the state after them and all that is
reported. -/
def applyAll (s : FileState) : List (ℕ × Update) → FileState × List ℕ
  | [] => (s, [])
  | (now, u) :: us =>
    let r := s.apply now u
    let q := r.1.applyAll us
    (q.1, r.2.1 ++ q.2)

/-- From `s` to `s'` the count grows by what is reported, and stays within the size. -/
structure Counts (s : FileState) (amounts : List ℕ) (s' : FileState) : Prop where
  size : s'.size = s.size
  sent : s'.sent = s.sent + amounts.sum
  le : s'.sent ≤ s'.size

variable {s} {s' s'' : FileState} {amounts more : List ℕ}

theorem Counts.refl (h : s.sent ≤ s.size) : Counts s [] s := ⟨rfl, rfl, h⟩

theorem Counts.trans (h : Counts s amounts s') (h' : Counts s' more s'') :
    Counts s (amounts ++ more) s'' := by
  refine ⟨h'.size.trans h.size, ?_, h'.le⟩
  rw [h'.sent, h.sent, List.sum_append, Nat.add_assoc]

theorem counts_advance (h : s.sent ≤ s.size) {transferred : Option ℕ}
    (ht : ∀ t ∈ transferred, t ≤ s.size) :
    Counts s (s.advance now transferred).2 (s.advance now transferred).1 := by
  cases transferred with
  | none => exact .refl h
  | some t =>
    simp only [advance]
    split
    · next hlt =>
      refine ⟨rfl, ?_, ht t rfl⟩
      rw [List.sum_singleton, Nat.add_sub_cancel' hlt.le]
    · exact .refl h

theorem counts_turn (h : s.sent ≤ s.size) (status : Status) :
    Counts s (s.turn now status).2.1 (s.turn now status).1 := by
  unfold turn
  split
  · exact .refl h
  · cases status with
    | complete =>
      refine ⟨rfl, ?_, le_rfl⟩
      rw [List.sum_singleton, Nat.add_sub_cancel' h]
    | queued | active | suspended | error => exact ⟨rfl, rfl, h⟩

/-- A status ends a transfer as complete only by saying so, and then every byte is counted. -/
theorem turn_eq_complete {status : Status} (h : (s.turn now status).2.2 = some .complete) :
    status = .complete ∧ (s.turn now status).1.sent = s.size := by
  unfold turn at h ⊢
  split at h
  · cases h
  · next hne =>
    cases status with
    | complete =>
      rw [if_neg hne]
      exact ⟨rfl, rfl⟩
    | queued | active | suspended | error => cases h

/-- An update of another size, or of more bytes than there are, ends the transfer and reports
nothing. -/
theorem apply_of_not_fits (h : ¬u.Fits s.size) :
    s.apply now u = (s, [], some (.abort changed)) := by
  unfold apply
  split
  · rfl
  · next hsize =>
    rw [if_pos]
    by_contra ht
    rw [Option.any_eq_true] at hsize ht
    refine h ⟨fun n hn => ?_, fun t hn => ?_⟩
    · by_contra hne
      exact hsize ⟨n, hn, by simpa using hne⟩
    · by_contra hlt
      exact ht ⟨t, hn, by simpa using hlt⟩

theorem apply_of_fits (h : u.Fits s.size) : s.apply now u = s.heed now u := by
  unfold apply
  rw [if_neg, if_neg]
  · rw [Option.any_eq_true]
    rintro ⟨t, ht, hlt⟩
    exact absurd (h.2 t ht) (by simpa using hlt)
  · rw [Option.any_eq_true]
    rintro ⟨n, hn, hne⟩
    exact absurd (h.1 n hn) (by simpa using hne)

theorem counts_apply (h : s.sent ≤ s.size) : Counts s (s.apply now u).2.1 (s.apply now u).1 := by
  by_cases hfits : u.Fits s.size
  · have hadvance := counts_advance now h hfits.2
    rw [apply_of_fits now u hfits, heed]
    cases u.status with
    | none => exact hadvance
    | some status => exact hadvance.trans (counts_turn now hadvance.le status)
  · rw [apply_of_not_fits now u hfits]
    exact .refl h

/-- An update ends a transfer as complete only by its status, and then every byte is counted. -/
theorem apply_eq_complete (h : s.sent ≤ s.size) (hend : (s.apply now u).2.2 = some .complete) :
    u.status = some .complete ∧ (s.apply now u).1.sent = s.size := by
  by_cases hfits : u.Fits s.size
  · rw [apply_of_fits now u hfits, heed] at hend ⊢
    cases hstatus : u.status with
    | none =>
      rw [hstatus] at hend
      cases hend
    | some status =>
      rw [hstatus] at hend
      obtain ⟨rfl, hsent⟩ := turn_eq_complete now hend
      exact ⟨rfl, hsent.trans (counts_advance now h hfits.2).size⟩
  · rw [apply_of_not_fits now u hfits] at hend
    cases hend

theorem counts_applyAll (h : s.sent ≤ s.size) (us : List (ℕ × Update)) :
    Counts s (s.applyAll us).2 (s.applyAll us).1 := by
  induction us generalizing s with
  | nil => exact .refl h
  | cons a us ih =>
    have happly := counts_apply a.1 a.2 h
    exact happly.trans (ih happly.le)

end FileState

end Files

end Sukkula.Bluetooth
