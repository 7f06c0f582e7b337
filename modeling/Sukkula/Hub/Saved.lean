import Sukkula.Hub.Dispatch
import Sukkula.Store.Write

/-! # The settings file and the command that writes it

`set_settings` writes the file first, in a blocking task, and then puts the new
settings into effect. The write is the store's, call by call. A task of the
blocking pool that has started runs to its end, also when the engine stops and
drops the command that waits for it; the command is answered all the same.
-/

namespace Sukkula.Hub

open Config LocalSend Store Transition

def settingsFile : Str := "settings.json".toList

/-- Where a `set_settings` waits. -/
inductive Await | switch | write | restart
  deriving DecidableEq, Repr

/-- What happens around a `set_settings`. -/
structure Meanwhile where
  busy : Bool := false
  -- The engine stops, and the runtime drops the command where it waits.
  dropped : Option Await := none
  started : Bool := true
  calls : List (Label Choice Empty) := []
  failure : Protocol → Option ErrorInfo := fun _ => none

/-- The answer of a `ReplyGuard` that is dropped at stop. -/
def stopping : ErrorInfo := ⟨.internal, "the engine is stopping"⟩

/-- `set_settings` once the write of the file gave `written`, as far as it gets. -/
def afterWrite (h : Switches) (settings valid : Settings) (m : Meanwhile)
    (written : Except StoreError Unit) : Switches × Except ErrorInfo Unit :=
  if m.dropped = some .write then (h, .error stopping)
  else
    match written with
    | .error e => (h, .error ⟨.storage, e.text⟩)
    | .ok () =>
      if m.dropped = some .restart ∧ h.receiving then
        ({ h with settings := valid }, .error stopping)
      else h.dispatch (.setSettings settings) m.failure (.ok ())

/-- `set_settings`, with its answer. The settings as JSON are `pretty`. -/
def setSettings (pretty : Settings → Except String Bytes) (h : Switches) (d : Disk)
    (settings : Settings) (m : Meanwhile) : Option (Switches × Disk × Except ErrorInfo Unit) :=
  match settings.validate with
  | .error e => some (h, d, .error ⟨.badSettings, String.ofList e.text⟩)
  | .ok valid =>
    if m.dropped = some .switch then some (h, d, .error stopping)
    else if m.busy then
      some (h, d, .error ⟨.internal, "the receive switch stayed busy; nothing was changed"⟩)
    else if !m.started then
      some (h, d, .error (if m.dropped = some .write then stopping
        else ⟨.internal, "the settings write failed"⟩))
    else
      match exec machine.step ((writeJson settingsFile (pretty valid)).run, d) m.calls with
      | some (.ret written, d) =>
        let (h, answer) := afterWrite h settings valid m written
        some (h, d, answer)
      | _ => none

section Failed

variable {pretty : Settings → Except String Bytes} {h h' : Switches} {f : Folder} {d : Disk}
  {settings : Settings} {m : Meanwhile} {e : ErrorInfo}

/-- Once the file is written, only a stop of the engine makes the answer an error. -/
theorem afterWrite_error {valid : Settings} (hv : settings.validate = .ok valid)
    (hs : (afterWrite h settings valid m (.ok ())).2 = .error e) : m.dropped.isSome := by
  unfold afterWrite at hs
  split_ifs at hs with h₁ h₂
  · simp [h₁]
  · simp [h₂.1]
  · simp [Switches.dispatch, hv] at hs

/-- How a `set_settings` that is answered with an error left the file. -/
theorem setSettings_error
    (hs : setSettings pretty h { folder := f } settings m = some (h', d, .error e)) :
    d = { folder := f } ∨ ∃ valid bytes r, settings.validate = .ok valid ∧
      pretty valid = .ok bytes ∧ Ended f settingsFile bytes d r ∧ (r.isOk → m.dropped.isSome) := by
  unfold setSettings at hs
  split at hs
  · cases hs
    exact Or.inl rfl
  rename_i valid hv
  split_ifs at hs
  · cases hs
    exact Or.inl rfl
  · cases hs
    exact Or.inl rfl
  · cases hs
    exact Or.inl rfl
  · cases hs
    exact Or.inl rfl
  split at hs
  · rename_i written d' hrun
    obtain ⟨rfl, rfl, ha⟩ : (afterWrite h settings valid m written).1 = h' ∧ d' = d ∧
        (afterWrite h settings valid m written).2 = .error e := by simpa using hs
    rcases ended_of_exec_writeJson hrun with ⟨hd, -⟩ | ⟨bytes, hb, hend⟩
    · exact Or.inl hd
    · refine Or.inr ⟨valid, bytes, written, hv, hb, hend, fun hok => ?_⟩
      cases written with
      | ok => exact afterWrite_error hv ha
      | error => cases hok
  · cases hs

/-- The error comes when the file is replaced already: the `fsync` of the directory failed, or it
did not and the engine stopped then. -/
def Late (m : Meanwhile) (d : Disk) : Prop :=
  d.synced = some false ∨ (d.synced = some true ∧ m.dropped.isSome)

theorem setSettings_unchanged_iff
    (hs : setSettings pretty h { folder := f } settings m = some (h', d, .error e)) :
    d.lookup settingsFile = f.lookup settingsFile ↔ ¬ Late m d ∨ ∃ valid bytes,
      settings.validate = .ok valid ∧ pretty valid = .ok bytes ∧
        f.lookup settingsFile = some ⟨.regular, bytes⟩ := by
  rcases setSettings_error hs with rfl | ⟨valid, bytes, r, hv, hb, hend, hok⟩
  · exact iff_of_true rfl (Or.inl (by simp [Late]))
  have hlate : ¬ Late m d ↔ d.synced = none := by
    cases r with
    | ok => cases hend with | replaced _ hsync => simp [Late, hsync, hok rfl]
    | error => rcases hend.synced_of_error with hsync | hsync <;> simp [Late, hsync]
  rw [hend.lookup_eq_iff, hlate]
  constructor
  · rintro (hsync | hold)
    · exact Or.inl hsync
    · exact Or.inr ⟨valid, bytes, hv, hb, hold⟩
  · rintro (hsync | ⟨valid', bytes', hv', hb', hold⟩)
    · exact Or.inl hsync
    · obtain rfl := Except.ok.inj (hv.symm.trans hv')
      obtain rfl := Except.ok.inj (hb.symm.trans hb')
      exact Or.inr hold

end Failed

/-- A write that fails leaves the old contents, unless what fails is the `fsync` of the directory;
a `set_settings` that is answered with an error leaves the file, unless the error comes late. -/
theorem failed_write (f : Folder) :
    (∀ name bytes ls e d, exec Store.machine.step ((Store.write name bytes).run,
        { folder := f }) ls = some (.ret (.error e), d) →
      (d.lookup name = f.lookup name ↔
        d.synced ≠ some false ∨ f.lookup name = some ⟨.regular, bytes⟩)) ∧
    ∀ pretty h settings m h' d e,
      setSettings pretty h { folder := f } settings m = some (h', d, .error e) →
      (d.lookup settingsFile = f.lookup settingsFile ↔ ¬ Late m d ∨ ∃ valid bytes,
        settings.validate = .ok valid ∧ pretty valid = .ok bytes ∧
          f.lookup settingsFile = some ⟨.regular, bytes⟩) := by
  constructor
  · intro name bytes ls e d h
    have hend := ended_of_exec h
    rw [hend.lookup_eq_iff]
    rcases hend.synced_of_error with hs | hs <;> simp [hs]
  · intro pretty h settings m h' d e hs
    exact setSettings_unchanged_iff hs

def oldFolder : Folder := ⟨[(settingsFile, ⟨.regular, [7]⟩)], by simp⟩

/-- The write of the bytes fails, and the temporary file is removed. -/
def diskFull : List (Label Choice Empty) :=
  [.answer .done, .answer (.draws (List.replicate 8 0)), .answer .done,
    .answer (.fails "No space left on device"), .answer .done]

theorem failed_write_keeps :
    (∃ e d, exec Store.machine.step ((Store.write settingsFile [1]).run, { folder := oldFolder })
        diskFull = some (.ret (.error e), d) ∧ d.lookup settingsFile =
        oldFolder.lookup settingsFile) ∧
    ∃ h' d e, setSettings (fun _ => .ok [1]) (.new [] {}) { folder := oldFolder } {}
        { calls := diskFull } = some (h', d, .error e) ∧
      d.lookup settingsFile = oldFolder.lookup settingsFile := by
  constructor
  · obtain ⟨d, hrun, hd⟩ := Machine.exec_ret_of_any (m := Store.machine)
      (p := (Store.write settingsFile [1]).run) (s := { folder := oldFolder }) (l := diskFull)
      (r := .error (.io "No space left on device")) (P := fun d => d.synced ≠ some false)
      (by decide +kernel)
    exact ⟨_, d, hrun, ((failed_write oldFolder).1 _ _ _ _ _ hrun).mpr (Or.inl hd)⟩
  · have hrun : ((setSettings (fun _ => .ok [1]) (.new [] {}) { folder := oldFolder } {}
        { calls := diskFull }).any fun r => ¬ r.2.2.isOk ∧ r.2.1.synced = none) = true := by
      decide +kernel
    obtain ⟨⟨h', d, a⟩, hs, ha⟩ := (Option.any_eq_true ..).mp hrun
    obtain ⟨hok, hd⟩ := of_decide_eq_true ha
    have hd : d.synced = none := hd
    have hlate : ¬ Late { calls := diskFull } d := by simp [Late, hd]
    cases a with
    | ok => exact absurd rfl hok
    | error e =>
      exact ⟨h', d, e, hs, ((failed_write oldFolder).2 _ _ _ _ _ _ _ hs).mpr (Or.inl hlate)⟩

/-- All the calls of a write of one byte are made, and only the directory cannot be synced; the
temporary file is no longer there to be removed. -/
def unsynced : List (Label Choice Empty) :=
  [.answer .done, .answer (.draws (List.replicate 8 0)), .answer .done, .answer (.takes 1),
    .answer .done, .answer .done, .answer (.fails "Input/output error"),
    .answer (.fails "No such file or directory")]

theorem failed_write_replaces :
    (∃ e d, checkName settingsFile = .ok () ∧
      exec Store.machine.step ((Store.write settingsFile [1]).run,
        { folder := oldFolder }) unsynced = some (.ret (.error e), d) ∧ d.lookup settingsFile ≠
        oldFolder.lookup settingsFile) ∧
    ∃ h' d e, setSettings (fun _ => .ok [1]) (.new [] {}) { folder := oldFolder } {}
        { calls := unsynced } = some (h', d, .error e) ∧
      d.lookup settingsFile ≠ oldFolder.lookup settingsFile := by
  constructor
  · obtain ⟨d, hrun, hd⟩ := Machine.exec_ret_of_any (m := Store.machine)
      (p := (Store.write settingsFile [1]).run) (s := { folder := oldFolder }) (l := unsynced)
      (r := .error (.io "Input/output error"))
      (P := fun d => d.lookup settingsFile ≠ oldFolder.lookup settingsFile) (by decide +kernel)
    exact ⟨_, d, by decide +kernel, hrun, hd⟩
  · have hrun : ((setSettings (fun _ => .ok [1]) (.new [] {}) { folder := oldFolder } {}
        { calls := unsynced }).any fun r => ¬ r.2.2.isOk ∧
          r.2.1.lookup settingsFile ≠ oldFolder.lookup settingsFile) = true := by decide +kernel
    obtain ⟨⟨h', d, a⟩, hs, ha⟩ := (Option.any_eq_true ..).mp hrun
    obtain ⟨hok, hd⟩ := of_decide_eq_true ha
    cases a with
    | ok => exact absurd rfl hok
    | error e => exact ⟨h', d, e, hs, hd⟩

end Sukkula.Hub
