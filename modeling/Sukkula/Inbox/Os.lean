import Sukkula.Library.Files
import Sukkula.Library.Prog
import Sukkula.Library.Str

/-! # The operating system as the inbox sees it

The calls of the inbox with their answers. A call is answered by a choice: to do
what it is for, which gives the one answer that the state of the disk allows, to
fail, or, where it is awaited, to be cancelled. `linkat` and `renameat2` with
`NOREPLACE` never replace an entry, `EEXIST` is only said of an entry that is
there, and `unlinkat` removes an entry that is no directory. The descriptor of a
file is the number of its inode in the table.
-/

namespace Sukkula.Inbox

open Str

/-- The target directory, its `.partial`, and a staging directory of its own. -/
inductive Dir | target | copies | staging
  deriving DecidableEq, Repr

/-- An entry: a directory, held open, and a name in it. -/
abbrev Key := Dir × Str

inductive Errno
  | noent | exist | loop | notDir | xdev | perm | opNotSupp | noSys | mlink
  | other (code : ℕ)
  deriving DecidableEq, Repr

inductive Stop (ε : Type)
  | failed (e : ε)
  | cancelled
  deriving DecidableEq, Repr

def stagingDir : Str := ".partial".toList

/-- What `fstat` says of a directory. -/
structure DirStat where
  isDir : Bool
  ours : Bool
  mode : BitVec 12
  deriving DecidableEq, Repr

/-- What `fstat` and `statat` say of a file. -/
structure Stat where
  id : FileId
  kind : Kind
  size : ℕ
  deriving DecidableEq, Repr

/-- An entry as a listing shows it; some file systems leave its type out. -/
structure DirEntry where
  name : Str
  fileType : Option Kind
  deriving DecidableEq, Repr

inductive Call
  | openDir (d : Dir)
  | mkdir (d : Dir)
  | statDir (d : Dir)
  | chmod (d : Dir) (mode : BitVec 12)
  | random
  | create (k : Key)
  -- `last` says that nothing removes the file any more should the call fail.
  | fstat (o : ℕ) (last : Bool)
  | stat (k : Key) (last : Bool)
  | link (k k' : Key)
  | rename (k k' : Key)
  | unlink (k : Key)
  | write (o : ℕ) (chunk : Bytes)
  | flush (o : ℕ)
  | sync (o : ℕ)
  | seek (o : ℕ)
  | read (o max : ℕ)
  | close (o : ℕ)
  | list (d : Dir)

def Ans : Call → Type
  | .openDir _ | .mkdir _ | .chmod .. | .link .. | .rename .. | .unlink _ => Except Errno Unit
  | .statDir _ => Except Errno DirStat
  | .random => Except String Bytes
  | .create _ => Except Errno ℕ
  | .fstat .. | .stat .. => Except Errno Stat
  | .write .. | .flush _ | .sync _ | .seek _ => Except (Stop Errno) Unit
  | .read .. => Except (Stop Errno) Bytes
  | .close _ => Unit
  | .list _ => Except Errno (List DirEntry)

inductive Choice
  | done
  | fails (e : Errno)
  -- An awaited call ends early, after some of its bytes.
  | stops (bytes : ℕ) (e : Stop Errno)
  | numbered (id : FileId)
  | takes (bytes : ℕ)
  | mode (m : BitVec 12)
  | draws (bytes : Bytes)
  | noRandom (text : String)
  | lists (entries : List DirEntry)

/-- The disk. The last two fields only record that a `stat` failed after which nothing removes the
file, and that a random name was in use already. -/
structure Disk extends Files Key where
  foreign : Dir → Bool
  statFailed : Bool
  drewTaken : Bool

namespace Disk

def kind (s : Disk) (o : ℕ) : Kind := (s.node o).kind

/-- The directory can be worked in; `.partial` is there only if the target has it. -/
def Present (s : Disk) (d : Dir) : Prop :=
  d = .copies → ∃ o, s.lookup (.target, stagingDir) = some o ∧ s.kind o = .directory

instance (s : Disk) (d : Dir) : Decidable (s.Present d) := by
  refine decidable_of_iff (d ≠ .copies ∨ ((s.lookup (.target, stagingDir)).map s.kind) =
    some .directory) ?_
  simp [Present, imp_iff_not_or]

def on (s : Disk) (f : Files Key) : Disk := { s with toFiles := f }

def statOf (s : Disk) (o : ℕ) : Stat := ⟨(s.node o).id, s.kind o, (s.node o).data.length⟩

/-- Bytes handed over for a file, to be written some time. -/
def accept (s : Disk) (o : ℕ) (b : Bytes) : Disk :=
  s.on (s.touch o { s.node o with pending := (s.node o).pending ++ b })

/-- `n` of the bytes handed over reach the disk. -/
def land (s : Disk) (o n : ℕ) : Disk :=
  s.on (s.touch o { s.node o with
    data := (s.node o).data ++ (s.node o).pending.take n
    pending := (s.node o).pending.drop n })

def atPos (s : Disk) (o pos : ℕ) : Disk := s.on (s.touch o { s.node o with pos := pos })

/-- The process removes an entry of `o`. -/
def remove (s : Disk) (k : Key) (o : ℕ) : Disk :=
  s.on ((s.touch o { s.node o with removed := true }).unlink k)

/-- A `stat` failed. -/
def statFails (s : Disk) (last : Bool) : Disk := if last then { s with statFailed := true } else s

def names (s : Disk) (d : Dir) : List Str :=
  s.links.filterMap fun e => if e.1.1 = d then some e.1.2 else none

/-- A listing has every entry once, with `.` and `..`, and no wrong type. -/
def Lists (s : Disk) (d : Dir) (l : List DirEntry) : Prop :=
  (l.map DirEntry.name).Perm (".".toList :: "..".toList :: s.names d) ∧
    ∀ e ∈ l, ∀ k, e.fileType = some k → ∀ o, s.lookup (d, e.name) = some o → s.kind o = k

instance (s : Disk) (d : Dir) (l : List DirEntry) : Decidable (s.Lists d l) := by
  unfold Lists
  have (e : DirEntry) : Decidable (∀ k, e.fileType = some k → ∀ o,
      s.lookup (d, e.name) = some o → s.kind o = k) :=
    match e.fileType, s.lookup (d, e.name) with
    | some k, some o => decidable_of_iff (s.kind o = k) (by simp)
    | none, _ => isTrue (by simp)
    | some _, none => isTrue (by simp)
  infer_instance

end Disk

/-- `openat` of a directory, without following a symlink. -/
def openDirAns (s : Disk) (d : Dir) : Except Errno Unit :=
  if d = .copies then
    match (s.lookup (.target, stagingDir)).map s.kind with
    | none => .error .noent
    | some .directory => .ok ()
    | some .symlink => .error .loop
    | some .regular => .error .notDir
  else .ok ()

/-! One function for each call: what the choices make of it. -/

namespace Os

def openDir (d : Dir) (s : Disk) : Choice → Option (Except Errno Unit × Disk)
  | .done => some (openDirAns s d, s)
  | .fails e => if e = .exist then none else some (.error e, s)
  | _ => none

def mkdir (d : Dir) (s : Disk) : Choice → Option (Except Errno Unit × Disk)
  | .numbered id =>
    if d = .copies ∧ s.FreeId id then
      match s.lookup (.target, stagingDir) with
      | some _ => some (.error .exist, s)
      | none => some (.ok (), s.on (s.add (.target, stagingDir) (.new id .directory [] false)))
    else none
  | .done => if d = .copies then none else some (.ok (), s)
  | .fails e => some (.error e, s)
  | _ => none

def statDir (d : Dir) (s : Disk) : Choice → Option (Except Errno DirStat × Disk)
  | .mode m => some (.ok ⟨true, !s.foreign d, m⟩, s)
  | .fails e => if e = .exist then none else some (.error e, s)
  | _ => none

def chmod (s : Disk) : Choice → Option (Except Errno Unit × Disk)
  | .done => some (.ok (), s)
  | .fails e => if e = .exist then none else some (.error e, s)
  | _ => none

def random (s : Disk) : Choice → Option (Except String Bytes × Disk)
  | .draws b => if b.length = 16 then some (.ok b, s) else none
  | .noRandom t => some (.error t, s)
  | _ => none

def create (k : Key) (s : Disk) : Choice → Option (Except Errno ℕ × Disk)
  | .numbered id =>
    if s.Present k.1 ∧ s.FreeId id then
      match s.lookup k with
      | some _ => some (.error .exist, { s with drewTaken := true })
      | none => some (.ok s.next, s.on ((s.add k (.new id .regular [] true)).openFile s.next))
    else none
  | .done => if s.Present k.1 then none else some (.error .noent, s)
  | .fails e => if e = .exist then none else some (.error e, s)
  | _ => none

def fstat (o : ℕ) (last : Bool) (s : Disk) : Choice → Option (Except Errno Stat × Disk)
  | .done => some (.ok (s.statOf o), s)
  | .fails e => if e = .exist then none else some (.error e, s.statFails last)
  | _ => none

def stat (k : Key) (last : Bool) (s : Disk) : Choice → Option (Except Errno Stat × Disk)
  | .done =>
    match s.lookup k with
    | some o => some (.ok (s.statOf o), s)
    | none => some (.error .noent, s)
  | .fails e => if e = .exist then none else some (.error e, s.statFails last)
  | _ => none

def link (k k' : Key) (s : Disk) : Choice → Option (Except Errno Unit × Disk)
  | .done =>
    match s.lookup k, s.lookup k' with
    | none, _ => some (.error .noent, s)
    | some _, some _ => some (.error .exist, s)
    | some o, none =>
      if s.kind o = .directory then some (.error .perm, s) else some (.ok (), s.on (s.link k' o))
  | .fails e => if e = .exist ∧ s.lookup k' = none then none else some (.error e, s)
  | _ => none

def rename (k k' : Key) (s : Disk) : Choice → Option (Except Errno Unit × Disk)
  | .done =>
    match s.lookup k, s.lookup k' with
    | none, _ => some (.error .noent, s)
    | some _, some _ => some (.error .exist, s)
    | some o, none => some (.ok (), s.on ((s.unlink k).link k' o))
  | .fails e => if e = .exist ∧ s.lookup k' = none then none else some (.error e, s)
  | _ => none

def unlink (k : Key) (s : Disk) : Choice → Option (Except Errno Unit × Disk)
  | .done =>
    match s.lookup k with
    | none => some (.error .noent, s)
    | some o =>
      if s.kind o = .directory then some (.error .perm, s) else some (.ok (), s.remove k o)
  | _ => none

def write (o : ℕ) (b : Bytes) (s : Disk) : Choice → Option (Except (Stop Errno) Unit × Disk)
  | .done => if (s.node o).lost then none else some (.ok (), s.accept o b)
  | .stops n e => if e = .failed .exist then none else some (.error e, s.accept o (b.take n))
  | _ => none

def flush (o : ℕ) (s : Disk) : Choice → Option (Except (Stop Errno) Unit × Disk)
  | .done => if (s.node o).lost then none else some (.ok (), s.land o (s.node o).pending.length)
  | .stops _ e => if e = .failed .exist then none else some (.error e, s)
  | _ => none

def sync (s : Disk) : Choice → Option (Except (Stop Errno) Unit × Disk)
  | .done => some (.ok (), s)
  | .stops _ e => if e = .failed .exist then none else some (.error e, s)
  | _ => none

def seek (o : ℕ) (s : Disk) : Choice → Option (Except (Stop Errno) Unit × Disk)
  | .done => some (.ok (), s.atPos o 0)
  | .stops _ e => if e = .failed .exist then none else some (.error e, s)
  | _ => none

def read (o max : ℕ) (s : Disk) : Choice → Option (Except (Stop Errno) Bytes × Disk)
  | .takes n =>
    let rest := (s.node o).data.drop (s.node o).pos
    if n ≤ max ∧ n ≤ rest.length ∧ (n = 0 → max = 0 ∨ rest = []) then
      some (.ok (rest.take n), s.atPos o ((s.node o).pos + n))
    else none
  | .stops _ e => if e = .failed .exist then none else some (.error e, s)
  | _ => none

def close (o : ℕ) (s : Disk) : Choice → Option (Unit × Disk)
  | .done => some ((), s.on (s.close o))
  | _ => none

def list (d : Dir) (s : Disk) : Choice → Option (Except Errno (List DirEntry) × Disk)
  | .lists l => if s.Lists d l then some (.ok l, s) else none
  | .fails e => some (.error e, s)
  | _ => none

end Os

def os : (c : Call) → Disk → Choice → Option (Ans c × Disk)
  | .openDir d => Os.openDir d
  | .mkdir d => Os.mkdir d
  | .statDir d => Os.statDir d
  | .chmod _ _ => Os.chmod
  | .random => Os.random
  | .create k => Os.create k
  | .fstat o last => Os.fstat o last
  | .stat k last => Os.stat k last
  | .link k k' => Os.link k k'
  | .rename k k' => Os.rename k k'
  | .unlink k => Os.unlink k
  | .write o b => Os.write o b
  | .flush o => Os.flush o
  | .sync _ => Os.sync
  | .seek o => Os.seek o
  | .read o max => Os.read o max
  | .close o => Os.close o
  | .list d => Os.list d

/-- What happens to the disk between two calls. -/
inductive Act
  | land (o n : ℕ)
  -- A write in the background fails; the next call on the file reports it.
  | lose (o : ℕ)
  -- Another process removes, links or creates an entry, or writes to a file.
  | unlink (k : Key)
  | link (k k' : Key)
  | create (k : Key) (id : FileId) (kind : Kind) (data : Bytes)
  | alter (o : ℕ) (data : Bytes)

def env (s : Disk) : Act → Option Disk
  | .land o n => some (s.land o n)
  | .lose o =>
    if (s.node o).pending = [] then none
    else some (s.on (s.touch o { s.node o with pending := [], lost := true }))
  | .unlink k => some (s.on (s.unlink k))
  | .link k k' =>
    match s.lookup k, s.lookup k' with
    | some o, none => if s.kind o = .directory then none else some (s.on (s.link k' o))
    | _, _ => none
  | .create k id kind data =>
    if s.Present k.1 ∧ s.FreeId id ∧ s.lookup k = none ∧ kind ≠ .directory then
      some (s.on (s.add k (.new id kind data false)))
    else none
  | .alter o data => some (s.on (s.touch o { s.node o with data := data }))

def machine : Machine Ans Disk Choice Act := ⟨os, env⟩

/-! The calls, with their types. -/

abbrev openatDir (d : Dir) : Prog Ans (Except Errno Unit) := .ask (Call.openDir d)

abbrev mkdirat (d : Dir) : Prog Ans (Except Errno Unit) := .ask (Call.mkdir d)

abbrev fstatDir (d : Dir) : Prog Ans (Except Errno DirStat) := .ask (Call.statDir d)

abbrev fchmod (d : Dir) (mode : BitVec 12) : Prog Ans (Except Errno Unit) :=
  .ask (Call.chmod d mode)

abbrev getrandom : Prog Ans (Except String Bytes) := .ask Call.random

abbrev openatExcl (k : Key) : Prog Ans (Except Errno ℕ) := .ask (Call.create k)

abbrev fstat (fd : ℕ) : Prog Ans (Except Errno Stat) := .ask (Call.fstat fd false)

/-- `fstat` of a file that was just made and that nothing watches yet. -/
abbrev fstatNew (fd : ℕ) : Prog Ans (Except Errno Stat) := .ask (Call.fstat fd true)

abbrev statat (k : Key) (last : Bool) : Prog Ans (Except Errno Stat) := .ask (Call.stat k last)

abbrev linkat (k k' : Key) : Prog Ans (Except Errno Unit) := .ask (Call.link k k')

abbrev renameat (k k' : Key) : Prog Ans (Except Errno Unit) := .ask (Call.rename k k')

abbrev unlinkat (k : Key) : Prog Ans (Except Errno Unit) := .ask (Call.unlink k)

abbrev writeAll (fd : ℕ) (chunk : Bytes) : Prog Ans (Except (Stop Errno) Unit) :=
  .ask (Call.write fd chunk)

abbrev flush (fd : ℕ) : Prog Ans (Except (Stop Errno) Unit) := .ask (Call.flush fd)

abbrev syncAll (fd : ℕ) : Prog Ans (Except (Stop Errno) Unit) := .ask (Call.sync fd)

abbrev seekStart (fd : ℕ) : Prog Ans (Except (Stop Errno) Unit) := .ask (Call.seek fd)

abbrev readSome (fd max : ℕ) : Prog Ans (Except (Stop Errno) Bytes) := .ask (Call.read fd max)

abbrev closeFd (fd : ℕ) : Prog Ans Unit := .ask (Call.close fd)

abbrev readDir (d : Dir) : Prog Ans (Except Errno (List DirEntry)) := .ask (Call.list d)

end Sukkula.Inbox
