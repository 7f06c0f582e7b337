import Sukkula.Inbox.Os
import Sukkula.Library.Prog
import Sukkula.Store.Names

/-! # The writes and the sweep of a store

The directory of a store with its entries, and the calls of `Store::write` and
`Store::open` on it. A call is answered by a choice: to do what it is for, if the
entries allow it, or to fail. One engine has the directory to itself, so nothing
happens between two calls but that the process may be killed: what the calls so
far did is what the next process finds.
-/

namespace Sukkula.Store

open Inbox (DirEntry)

structure Node where
  kind : Kind
  data : Bytes
  deriving DecidableEq, Repr

abbrev Folder := Assoc.Table Str Node

/-- A listing has every entry once, with `.` and `..`, and no wrong type. -/
def Lists (f : Folder) (l : List DirEntry) : Prop :=
  (l.map DirEntry.name).Perm (['.'] :: ['.', '.'] :: f.entries.map Prod.fst) ∧
    ∀ e ∈ l, ∀ k ∈ e.fileType, ∀ n ∈ f.lookup e.name, n.kind = k

instance (f : Folder) (l : List DirEntry) : Decidable (Lists f l) := by unfold Lists; infer_instance

/-- The disk. The last field only records what a `fsync` of the directory came to. -/
structure Disk where
  folder : Folder
  synced : Option Bool := none

namespace Disk

def lookup (d : Disk) (k : Str) : Option Node := d.folder.lookup k

def remove (d : Disk) (k : Str) : Disk := { d with folder := d.folder.remove k }

def set (d : Disk) (k : Str) (n : Node) : Disk := { d with folder := d.folder.set k n }

@[simp] theorem lookup_remove {d : Disk} {k k' : Str} :
    (d.remove k).lookup k' = if k' = k then none else d.lookup k' := Assoc.Table.lookup_remove

@[simp] theorem lookup_set {d : Disk} {k k' : Str} {n : Node} :
    (d.set k n).lookup k' = if k' = k then some n else d.lookup k' := Assoc.Table.lookup_set

@[simp] theorem synced_remove {d : Disk} {k : Str} : (d.remove k).synced = d.synced := rfl

@[simp] theorem synced_set {d : Disk} {k : Str} {n : Node} : (d.set k n).synced = d.synced := rfl

end Disk

inductive Call
  | openDir
  | random
  | create (k : Str)
  -- To the file that was created as `k`.
  | write (k : Str) (bytes : Bytes)
  | sync
  | rename (k k' : Str)
  | syncDir
  | unlink (k : Str)
  | list
  | stat (k : Str)

/-- The answers; of an error, the store keeps the text. -/
def Ans : Call → Type
  | .openDir | .create _ | .sync | .rename .. | .syncDir | .unlink _ => Except String Unit
  | .random => Except String Bytes
  | .write .. => Except String ℕ
  | .list => Except String (List DirEntry)
  | .stat _ => Except String Kind

inductive Choice
  | done
  | draws (bytes : Bytes)
  | takes (bytes : ℕ)
  | lists (entries : List DirEntry)
  | fails (text : String)

namespace Os

/-- `O_CREAT | O_EXCL` -/
def create (k : Str) (d : Disk) : Option Disk :=
  if d.lookup k = none then some (d.set k ⟨.regular, []⟩) else none

def write (k : Str) (bytes : Bytes) (d : Disk) (n : ℕ) : Option (ℕ × Disk) :=
  match d.lookup k with
  | some ⟨.regular, data⟩ =>
    if n ≤ bytes.length then some (n, d.set k ⟨.regular, data ++ bytes.take n⟩) else none
  | _ => none

/-- An entry that is no directory is replaced, as it is. -/
def rename (k k' : Str) (d : Disk) : Option Disk :=
  match d.lookup k with
  | some n =>
    if (d.lookup k').map Node.kind = some .directory then none else some ((d.remove k).set k' n)
  | none => none

def unlink (k : Str) (d : Disk) : Option Disk :=
  match d.lookup k with
  | some n => if n.kind = .directory then none else some (d.remove k)
  | none => none

end Os

def os : (c : Call) → Disk → Choice → Option (Ans c × Disk)
  | .openDir, d, .done => some (Except.ok (), d)
  | .random, d, .draws r => if r.length = tmpRandomBytes then some (Except.ok r, d) else none
  | .create k, d, .done => (Os.create k d).map fun d => (Except.ok (), d)
  | .write k bytes, d, .takes n => (Os.write k bytes d n).map fun r => (Except.ok r.1, r.2)
  | .sync, d, .done => some (Except.ok (), d)
  | .rename k k', d, .done => (Os.rename k k' d).map fun d => (Except.ok (), d)
  | .syncDir, d, .done => some (Except.ok (), { d with synced := some true })
  | .unlink k, d, .done => (Os.unlink k d).map fun d => (Except.ok (), d)
  | .list, d, .lists l => if Lists d.folder l then some (Except.ok l, d) else none
  | .stat k, d, .done => (d.lookup k).map fun n => (Except.ok n.kind, d)
  | .syncDir, d, .fails e => some (Except.error e, { d with synced := some false })
  | .openDir, d, .fails e | .create _, d, .fails e | .sync, d, .fails e | .rename .., d, .fails e
  | .unlink _, d, .fails e => some (Except.error e, d)
  | .random, d, .fails e => some (Except.error e, d)
  | .write .., d, .fails e => some (Except.error e, d)
  | .list, d, .fails e => some (Except.error e, d)
  | .stat _, d, .fails e => some (Except.error e, d)
  | _, _, _ => none

def machine : Machine Ans Disk Choice Empty where
  os := os
  env _ a := a.elim

/-- A call that fails gives the text of its error. -/
abbrev Io := ExceptT String (Prog Ans)

namespace Io

def openDir : Io Unit := ExceptT.mk (Prog.ask Call.openDir)

def getrandom : Io Bytes := ExceptT.mk (Prog.ask Call.random)

def create (k : Str) : Io Unit := ExceptT.mk (Prog.ask (Call.create k))

def write (k : Str) (bytes : Bytes) : Io ℕ := ExceptT.mk (Prog.ask (Call.write k bytes))

def sync : Io Unit := ExceptT.mk (Prog.ask Call.sync)

def rename (k k' : Str) : Io Unit := ExceptT.mk (Prog.ask (Call.rename k k'))

def syncDir : Io Unit := ExceptT.mk (Prog.ask Call.syncDir)

def unlink (k : Str) : Io Unit := ExceptT.mk (Prog.ask (Call.unlink k))

def list : Io (List DirEntry) := ExceptT.mk (Prog.ask Call.list)

def stat (k : Str) : Io Kind := ExceptT.mk (Prog.ask (Call.stat k))

end Io

/-- `write_all`: what a write left is written by another. One that is interrupted did nothing,
and is made again. -/
def writeAll (tmp : Str) : (bytes : Bytes) → (done : ℕ) → Io Unit
  | [], _ => pure ()
  | _ :: rest, done + 1 => writeAll tmp rest done
  | b :: rest, 0 => do
    let n ← Io.write tmp (b :: rest)
    if n = 0 then throw "failed to write whole buffer" else writeAll tmp rest (n - 1)

def replace (tmp name : Str) (bytes : Bytes) : Io Unit := do
  Io.create tmp
  writeAll tmp bytes 0
  Io.sync
  Io.rename tmp name
  Io.syncDir

def write (name : Str) (bytes : Bytes) : ExceptT StoreError (Prog Ans) Unit := do
  checkName name
  Io.openDir.adapt .directory
  let random ← Io.getrandom.adapt .io
  let tmp := temporaryName name random
  match ← ExceptT.lift (replace tmp name bytes).run with
  | .ok () => pure ()
  | .error e =>
    let _ ← ExceptT.lift (Io.unlink tmp).run
    throw (.io e)

/-- `Store::write_json`, given what the value is as JSON -/
def writeJson (name : Str) (json : Except String Bytes) : ExceptT StoreError (Prog Ans) Unit := do
  let bytes ← json.mapError (StoreError.malformed name)
  write name bytes

def maxTmpSweep : ℕ := 10000

/-- Whether an entry is a regular file; where the listing does not say, `statat` does. -/
def isRegular (e : DirEntry) : Prog Ans Bool :=
  match e.fileType with
  | some kind => pure (kind == .regular)
  | none => do
    match ← (Io.stat e.name).run with
    | .ok kind => pure (kind == .regular)
    | .error _ => pure false

def sweepEntry (e : DirEntry) : Prog Ans Unit := do
  if isTemporary e.name then
    if ← isRegular e then
      let _ ← (Io.unlink e.name).run

def sweepEntries : List DirEntry → Prog Ans Unit
  | [] => pure ()
  | e :: l => do
    sweepEntry e
    sweepEntries l

def sweepTemporaries : Prog Ans Unit := do
  match ← Io.list.run with
  | .ok entries => sweepEntries (entries.take maxTmpSweep)
  | .error _ => pure ()

/-- `Store::open` -/
def openStore : ExceptT StoreError (Prog Ans) Unit := do
  Io.openDir.adapt .directory
  ExceptT.lift sweepTemporaries

end Sukkula.Store
