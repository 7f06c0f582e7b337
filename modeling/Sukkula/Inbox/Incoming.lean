import Sukkula.Inbox.Os
import Sukkula.Library.Hex
import Sukkula.Name.SafeName

/-! # Receiving a file

The code of the inbox, call by call: opening the directories, the sweep of a
previous run's files, and the life of one incoming file. A method on `&mut self`
returns the value with `self` as it left it. An awaited call that is cancelled
ends the method there, and whatever the caller then drops runs its destructor.
-/

namespace Sukkula.Inbox

open Str Name

inductive IoError
  | os (e : Errno)
  | other (text : String)
  deriving DecidableEq, Repr

def IoError.alreadyExists (e : IoError) : Prop := e = .os .exist

instance (e : IoError) : Decidable e.alreadyExists := inferInstanceAs (Decidable (e = _))

inductive DirError
  | notPlain
  | io (e : IoError)
  deriving DecidableEq, Repr

inductive InboxError
  | notADirectory (d : Dir)
  | tooLarge
  | overflow
  | truncated (got declared : ℕ)
  | digestMismatch
  | noFreeName
  | io (e : IoError)
  deriving DecidableEq, Repr

def spoiledIo : IoError := .other "an earlier write to this file failed"

def tamperedIo : IoError := .other "the staging file was changed by something else"

abbrev Io := ExceptT (Stop IoError) (Prog Ans)

section Calls

variable {α : Type}

/-- A system call followed by `?`. -/
def sys (p : Prog Ans (Except Errno α)) : Io α :=
  .mk (p >>= fun r => pure (r.mapError fun e => .failed (.os e)))

def Stop.ofErrno : Stop Errno → Stop IoError
  | .failed e => .failed (.os e)
  | .cancelled => .cancelled

/-- An awaited call followed by `?`. -/
def sysAwait (p : Prog Ans (Except (Stop Errno) α)) : Io α :=
  .mk (p >>= fun r => pure (r.mapError .ofErrno))

def DirError.ofErrno : Errno → DirError
  | .loop | .notDir => .notPlain
  | e => .io (.os e)

def sysDir (p : Prog Ans (Except Errno α)) : ExceptT DirError (Prog Ans) α :=
  .mk (p >>= fun r => pure (r.mapError .ofErrno))

end Calls

inductive Share | readOnly | nothing

def Share.wanted : Share → BitVec 12 → BitVec 12
  | .readOnly, mode => mode &&& ~~~0o022#12
  | .nothing, mode => mode &&& 0o700#12

def check (d : Dir) (share : Share) : ExceptT DirError (Prog Ans) Unit := do
  let st ← sysDir (fstatDir d)
  if !st.isDir || !st.ours then throw .notPlain
  else if share.wanted st.mode ≠ st.mode then sysDir (fchmod d (share.wanted st.mode))
  else pure ()

/-- `dirfd::open`, which makes a missing directory and its parents -/
def openPath (d : Dir) (share : Share) : ExceptT DirError (Prog Ans) Unit := do
  match ← openatDir d with
  | .ok () => check d share
  | .error .noent =>
    match ← mkdirat d with
    | .ok () =>
      sysDir (openatDir d)
      check d share
    | .error e => throw (.io (.os e))
  | .error e => throw (.ofErrno e)

/-- `dirfd::open_at` of `.partial` -/
def openAt (d : Dir) (share : Share) : ExceptT DirError (Prog Ans) Unit := do
  match ← openatDir d with
  | .ok () => check d share
  | .error .noent =>
    match ← mkdirat d with
    | .ok () | .error .exist =>
      sysDir (openatDir d)
      check d share
    | .error e => throw (.ofErrno e)
  | .error e => throw (.ofErrno e)

/-- `dirfd::open_existing_at`, which makes nothing -/
def openExistingAt (d : Dir) (share : Share) : ExceptT DirError (Prog Ans) Bool := do
  match ← openatDir d with
  | .ok () =>
    check d share
    pure true
  | .error .noent => pure false
  | .error e => throw (.ofErrno e)

inductive Staging | nested | apart
  deriving DecidableEq, Repr

def Staging.dir : Staging → Dir
  | .nested => .copies
  | .apart => .staging

/-- The error of `open_dirs` for a directory. -/
def notPlain (d : Dir) : DirError → InboxError
  | .notPlain => .notADirectory d
  | .io e => .io e

def openDirs (staging : Staging) : ExceptT InboxError (Prog Ans) Unit := do
  (openPath .target .readOnly).adapt (notPlain .target)
  match staging with
  | .nested => (openAt .copies .nothing).adapt (notPlain .copies)
  | .apart => (openPath .staging .nothing).adapt (notPlain .staging)

def partSuffix : Str := ".part".toList

def partName : Io Str :=
  .mk (getrandom >>= fun
    | .ok b => pure (.ok (hexEncode b ++ partSuffix))
    | .error text => pure (.error (.failed (.other text))))

def createExclusive (k : Key) : Io ℕ := sys (openatExcl k)

/-- The identity of an entry, without following a symlink. -/
def entryId (k : Key) (last : Bool) : Prog Ans (Option FileId) := do
  match ← statat k last with
  | .ok st => pure (some st.id)
  | .error _ => pure none

/-- Whether a failed `linkat` means that the file system cannot link here. -/
def copyInstead : Errno → Bool
  | .xdev | .perm | .opNotSupp | .noSys | .mlink => true
  | _ => false

/-- The copy fallback's copy of a staged file, waiting for a free name. -/
structure Copied where
  name : Str
  id : FileId
  deriving DecidableEq, Repr

def Copied.key (c : Copied) : Key := (.copies, c.name)

/-- `Drop for Placing`, armed -/
def dropPlacing (c : Copied) : Prog Ans Unit := do
  if (← entryId c.key true) = some c.id then
    let _ ← unlinkat c.key
    pure ()
  else pure ()

def maxStaleSweep : ℕ := 10000

/-- The loop of `sweep_stale`. -/
def sweepEntries (d : Dir) : List DirEntry → Prog Ans Unit
  | [] => pure ()
  | e :: es => do
    if partSuffix.isSuffixOf e.name then
      let regular ← (match e.fileType with
        | some k => pure (k = .regular)
        | none => do
          match ← statat (d, e.name) false with
          | .ok st => pure (st.kind = .regular)
          | .error _ => pure false : Prog Ans Bool)
      if regular then
        let _ ← unlinkat (d, e.name)
        sweepEntries d es
      else sweepEntries d es
    else sweepEntries d es

def sweepStale (d : Dir) : Prog Ans Unit := do
  match ← readDir d with
  | .ok entries => sweepEntries d (entries.take maxStaleSweep)
  | .error _ => pure ()

/-- `Inbox::with`, which `open` and `open_with_staging` are -/
def openInbox (staging : Staging) : ExceptT InboxError (Prog Ans) Unit := do
  openDirs staging
  sweepStale staging.dir
  match staging with
  | .nested => pure ()
  | .apart =>
    match ← (openExistingAt .copies .nothing).run with
    | .ok true => sweepStale .copies
    | _ => pure ()

def maxFileBytes : ℕ := 8 * 1024 * 1024 * 1024

def maxNameAttempts : ℕ := 1000

/-- The loop of `tokio::io::copy` from `src`, of which `rest` bytes may be taken. A read that is
not at the end gives a byte at least, so it takes no more rounds than there are bytes. -/
def copyLoop (src out : ℕ) : (rounds rest : ℕ) → Io ℕ
  | 0, _ => pure 0
  | rounds + 1, rest => do
    if rest = 0 then pure 0
    else
      let chunk ← sysAwait (readSome src rest)
      if chunk = [] then pure 0
      else
        sysAwait (writeAll out chunk)
        let n ← copyLoop src out rounds (rest - chunk.length)
        pure (chunk.length + n)

def ioCopy (src out limit : ℕ) : Io ℕ := do
  let n ← copyLoop src out limit limit
  sysAwait (flush out)
  pure n

/-- The copy is linked, or renamed where there are no links; whether it was linked. -/
def linkCopy (copied : Copied) (dest : Str) : Io Bool := do
  match ← linkat copied.key (.target, dest) with
  | .ok () => pure true
  | .error e =>
    if copyInstead e then
      sys (renameat copied.key (.target, dest))
      pure false
    else throw (.failed (.os e))

/-- `place_copy` once there is a copy. -/
def putCopy (copied : Copied) (dest : Str) : Io Unit := do
  if (← entryId copied.key false) ≠ some copied.id then throw (.failed tamperedIo)
  else
    let linked ← linkCopy copied dest
    if (← entryId (.target, dest) false) ≠ some copied.id then
      let _ ← unlinkat (.target, dest)
      throw (.failed tamperedIo)
    else if linked then
      let _ ← unlinkat copied.key
      pure ()
    else pure ()

section Receive

variable {Digest : Type}

/-- One file being received. The hasher is the bytes it was given. -/
structure Incoming (Digest : Type) where
  file : Option ℕ
  staging : Dir
  stagingName : Str
  id : FileId
  name : SafeName
  declared : ℕ
  written : ℕ
  hasher : Bytes
  expected : Option Digest
  copied : Option Copied
  failed : Bool
  done : Bool

def Incoming.key (inc : Incoming Digest) : Key := (inc.staging, inc.stagingName)

structure Saved where
  name : SafeName
  path : Key
  size : ℕ
  deriving DecidableEq

def ioStop : Stop IoError → Stop InboxError
  | .failed e => .failed (.io e)
  | .cancelled => .cancelled

def spoiled : Stop InboxError := .failed (.io spoiledIo)

/-- `Inbox::begin` -/
def beginFile (staging : Staging) (name : SafeName) (size : ℕ) (sha256 : Option Digest) :
    ExceptT (Stop InboxError) (Prog Ans) (Incoming Digest) := do
  if maxFileBytes < size then throw (.failed .tooLarge)
  else
    (openDirs staging).adapt .failed
    let stagingName ← partName.adapt ioStop
    let fd ← (createExclusive (staging.dir, stagingName)).adapt ioStop
    match ← fstatNew fd with
    | .ok st =>
      pure ⟨some fd, staging.dir, stagingName, st.id, name, size, 0, [], sha256, none, false, false⟩
    | .error e =>
      closeFd fd
      throw (.failed (.io (.os e)))

namespace Incoming

variable (inc : Incoming Digest)

/-- Appends `chunk`. A sum past `u64` is past the declared size too. -/
def write (chunk : Bytes) : Prog Ans (Except (Stop InboxError) Unit × Incoming Digest) := do
  if inc.failed then pure (.error spoiled, inc)
  else if inc.declared < inc.written + chunk.length then
    pure (.error (.failed .overflow), { inc with failed := true })
  else
    match inc.file with
    | none => pure (.error spoiled, inc)
    | some fd =>
      match ← (sysAwait (writeAll fd chunk)).run with
      | .ok () =>
        pure (.ok (), { inc with
          hasher := inc.hasher ++ chunk, written := inc.written + chunk.length })
      | .error e => pure (.error (ioStop e), { inc with failed := true })

/-- The part of `copy` that the guard watches. -/
def copyBody (out : ℕ) : Io Unit :=
  match inc.file with
  | none => throw (.failed spoiledIo)
  | some src => do
    sysAwait (seekStart src)
    let copied ← ioCopy src out inc.declared
    if copied ≠ inc.declared then throw (.failed tamperedIo)
    else
      sysAwait (flush out)
      sysAwait (syncAll out)

def partialUnusable : DirError → Stop IoError
  | .notPlain => .failed (.other "the target's .partial is not usable")
  | .io e => .failed e

/-- Copies the staged file into a new one in the target's `.partial`. On the way out `out` is
closed before the guard is dropped. -/
def copy : Io Copied := do
  (openAt .copies .nothing).adapt partialUnusable
  let name ← partName
  let out ← createExclusive (.copies, name)
  match ← fstatNew out with
  | .error e =>
    closeFd out
    throw (.failed (.os e))
  | .ok st =>
    match ← ExceptT.lift (inc.copyBody out).run with
    | .ok () =>
      closeFd out
      pure ⟨name, st.id⟩
    | .error e =>
      closeFd out
      dropPlacing ⟨name, st.id⟩
      throw e

def placeCopy (dest : Str) : Prog Ans (Except (Stop IoError) Unit × Incoming Digest) := do
  match ← (match inc.copied with
      | some c => pure c
      | none => inc.copy : Io Copied).run with
  | .error e => pure (.error e, inc)
  | .ok copied =>
    match ← (putCopy copied dest).run with
    | .ok () => pure (.ok (), { inc with copied := none })
    | .error e => pure (.error e, { inc with copied := some copied })

/-- Puts the staged file at `dest` in the target directory, which must not exist. -/
def place (dest : Str) : Prog Ans (Except (Stop IoError) Unit × Incoming Digest) := do
  match ← statat inc.key false with
  | .error e => pure (.error (.failed (.os e)), inc)
  | .ok staged =>
    if staged.id ≠ inc.id then pure (.error (.failed tamperedIo), inc)
    else
      match ← linkat inc.key (.target, dest) with
      | .ok () =>
        if (← entryId (.target, dest) false) = some inc.id then pure (.ok (), inc)
        else
          let _ ← unlinkat (.target, dest)
          pure (.error (.failed tamperedIo), inc)
      | .error e =>
        if copyInstead e then inc.placeCopy dest
        else pure (.error (.failed (.os e)), inc)

/-- The loop of `commit` over the numbers still to try. -/
def tryNames (inc : Incoming Digest) :
    List ℕ → Prog Ans (Except (Stop InboxError) Saved × Incoming Digest)
  | [] => pure (.error (.failed .noFreeName), inc)
  | n :: ns => do
    let candidate := inc.name.numbered (.ofNat n)
    match ← inc.place candidate.val with
    | (.ok (), inc) =>
      let _ ← unlinkat inc.key
      pure (.ok ⟨candidate, (.target, candidate.val), inc.declared⟩, { inc with done := true })
    | (.error (.failed e), inc) =>
      if e.alreadyExists then tryNames inc ns else pure (.error (.failed (.io e)), inc)
    | (.error .cancelled, inc) => pure (.error .cancelled, inc)

variable [DecidableEq Digest] (sha256 : Bytes → Digest)

/-- What `commit` checks before it places anything. -/
def verify : ExceptT (Stop InboxError) (Prog Ans) Unit :=
  if inc.failed then throw spoiled
  else if inc.written ≠ inc.declared then throw (.failed (.truncated inc.written inc.declared))
  else
    match inc.file with
    | none => throw spoiled
    | some fd => do
      (sysAwait (flush fd)).adapt ioStop
      (sysAwait (syncAll fd)).adapt ioStop
      let st ← (sys (fstat fd)).adapt ioStop
      if st.size ≠ inc.declared then throw (.failed (.io tamperedIo))
      else
        match inc.expected with
        | none => pure ()
        | some expected =>
          if sha256 inc.hasher ≠ expected then throw (.failed .digestMismatch) else pure ()

/-- The body of `commit`, with `self` as it is when it is dropped. -/
def commit : Prog Ans (Except (Stop InboxError) Saved × Incoming Digest) := do
  match ← (inc.verify sha256).run with
  | .ok () => inc.tryNames (List.range maxNameAttempts)
  | .error e => pure (.error e, inc)

/-- A copy not placed goes with the file, if it is still ours. -/
def dropCopied : Prog Ans Unit :=
  match inc.copied with
  | some c => dropPlacing c
  | none => pure ()

def closeFile : Prog Ans Unit :=
  match inc.file with
  | some fd => closeFd fd
  | none => pure ()

/-- `Drop for Incoming`, and of its descriptor -/
def drop : Prog Ans Unit := do
  inc.dropCopied
  inc.closeFile
  if inc.done then pure ()
  else
    let _ ← unlinkat inc.key
    pure ()

def writes (inc : Incoming Digest) : List Bytes → Prog Ans (Incoming Digest)
  | [] => pure inc
  | chunk :: chunks => do
    let (_, inc) ← inc.write chunk
    writes inc chunks

end Incoming

inductive Outcome
  | refused (e : Stop InboxError)
  | dropped
  | committed (r : Except (Stop InboxError) Saved)
  deriving DecidableEq

/-- The life of one incoming file: `begin`, some writes, and a commit or a drop. -/
def receive [DecidableEq Digest] (sha256 : Bytes → Digest) (staging : Staging) (name : SafeName)
    (size : ℕ) (expected : Option Digest) (chunks : List Bytes) (commits : Bool) :
    Prog Ans Outcome := do
  match ← (beginFile staging name size expected).run with
  | .error e => pure (.refused e)
  | .ok inc =>
    let inc ← inc.writes chunks
    if commits then
      let (r, inc) ← inc.commit sha256
      inc.drop
      pure (.committed r)
    else
      inc.drop
      pure .dropped

end Receive

end Sukkula.Inbox
