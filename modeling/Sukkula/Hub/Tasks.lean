import Sukkula.Hub.Dispatch

/-! # The commands as tasks

Every command is a task of its own, and so is every adapter that one of them
starts or stops. A command for the switches first gets in line for its lock,
which is handed on in the order of the line, and holds it until the adapters
have answered. The commands for discovery are under a time limit as a whole: one
that runs out drops the lock, and the adapter tasks go on without it.
-/

namespace Sukkula.Hub

open Config Transition

inductive Lock | state | discovery
  deriving DecidableEq, Repr

namespace SwitchCommand

/-- The lock that a command holds while it works. -/
def lock : SwitchCommand → Option Lock
  | .setReceiving _ | .setSettings _ => some .state
  | .startDiscovery | .stopDiscovery => some .discovery
  | .other => none

/-- Whether `command_timeout` gives it a limit as a whole. -/
def limited : SwitchCommand → Bool
  | .setReceiving _ | .setSettings _ => false
  | _ => true

end SwitchCommand

inductive Stage
  | unknown
  | spawned
  -- In line for its lock; the first in line has it.
  | waiting
  | writing
  -- It waits for the receivers that it stopped, before it starts them again.
  | stopping
  -- It waits for the adapters that it started or stopped.
  | switching
  | answered (ok : Bool)
  deriving DecidableEq, Repr

namespace Stage

def InLine : Stage → Prop
  | .waiting | .writing | .stopping | .switching => True
  | _ => False

/-- Holding the lock, and past the wait for it. -/
def Inside : Stage → Prop
  | .writing | .stopping | .switching => True
  | _ => False

end Stage

/-- A call to an adapter, in a task of its own. -/
structure AdapterTask where
  owner : ℕ
  adapter : ℕ
  call : Call
  deriving DecidableEq, Repr

/-- Commands are numbered in the order they are given. -/
structure Tasks where
  adapters : List (Protocol × Bool)
  settings : Settings
  file : Settings
  receiving : Bool
  given : List SwitchCommand
  stage : ℕ → Stage
  line : Lock → List ℕ
  running : List AdapterTask

namespace Tasks

def new (adapters : List (Protocol × Bool)) (settings file : Settings) : Tasks :=
  ⟨adapters, settings, file, false, [], fun _ => .unknown, fun _ => [], []⟩

def setStage (s : Tasks) (k : ℕ) (stage : Stage) : Tasks :=
  { s with stage := Function.update s.stage k stage }

/-- `spawn_command`: a command becomes a task. -/
def give (s : Tasks) (cmd : SwitchCommand) : Tasks :=
  { s.setStage s.given.length .spawned with given := s.given ++ [cmd] }

def queue (s : Tasks) (l : Lock) (k : ℕ) : Tasks :=
  { s.setStage k .waiting with line := Function.update s.line l (s.line l ++ [k]) }

/-- Leaves the line, with the lock if it had it, and answers. -/
def leave (s : Tasks) (l : Lock) (k : ℕ) (ok : Bool) : Tasks :=
  { s.setStage k (.answered ok) with line := Function.update s.line l ((s.line l).erase k) }

/-- `each`: one task for every adapter that `f` gives a call for. -/
def each (s : Tasks) (k : ℕ) (f : Protocol → Bool → Option Call) : Tasks :=
  { s with
    running := s.running ++ s.adapters.zipIdx.filterMap fun ((protocol, receives), i) =>
      (f protocol receives).map fun call => ⟨k, i, call⟩ }

/-- `set_receiving`, as far as the wait for its adapters. -/
def setReceiving (s : Tasks) (k : ℕ) (on : Bool) : Tasks :=
  ({ s with receiving := on }.each k fun protocol receives =>
    if receives then some (receiveCall s.settings on protocol) else none).setStage k .switching

/-- A task runs for the first time: up to the wait for its lock. -/
def poll (s : Tasks) (k : ℕ) : Option Tasks :=
  match s.stage k, s.given[k]? with
  | .spawned, some (.setSettings settings) =>
    match settings.validate with
    | .error _ => some (s.setStage k (.answered false))
    | .ok _ => some (s.queue .state k)
  | .spawned, some (.setReceiving _) => some (s.queue .state k)
  | .spawned, some .startDiscovery | .spawned, some .stopDiscovery => some (s.queue .discovery k)
  | .spawned, some .other => some (s.setStage k (.answered true))
  | _, _ => none

def enter (s : Tasks) (k : ℕ) : Option Tasks :=
  match s.stage k, s.given[k]? with
  | .waiting, some cmd =>
    if cmd.lock.bind (fun l => (s.line l).head?) = some k then
      match cmd with
      | .setReceiving on => some (s.setReceiving k on)
      | .setSettings _ => some (s.setStage k .writing)
      | .startDiscovery =>
        some ((s.each k fun protocol _ => some (discoverCall s.settings protocol)).setStage k
          .switching)
      | .stopDiscovery => some ((s.each k fun _ _ => some .stopDiscovery).setStage k .switching)
      | .other => none
    else none
  | _, _ => none

/-- The write of the settings file ends. One that fails may still have replaced the file. -/
def wrote (s : Tasks) (k : ℕ) (ok replaced : Bool) : Option Tasks :=
  match s.stage k, s.given[k]? with
  | .writing, some (.setSettings settings) =>
    match settings.validate with
    | .error _ => none
    | .ok settings =>
      if ok then
        let s := { s with settings, file := settings }
        if s.receiving then
          some ((s.each k fun _ receives => if receives then some .stopReceiving
            else none).setStage k .stopping)
        else some (s.leave .state k true)
      else some ({ s with file := if replaced then settings else s.file }.leave .state k false)
  | _, _ => none

/-- All the adapters that the command waits for have answered. -/
def joined (s : Tasks) (k : ℕ) : Option Tasks :=
  if s.running.any (·.owner = k) then none
  else
    match s.stage k, s.given[k]? with
    | .stopping, some (.setSettings _) => some (s.setReceiving k true)
    | .switching, some cmd => cmd.lock.map fun l => s.leave l k true
    | _, _ => none

/-- The wait for the receive switch runs out; the one that has it goes on instead. -/
def giveUp (s : Tasks) (k : ℕ) : Option Tasks :=
  match s.stage k, s.given[k]? with
  | .waiting, some cmd =>
    if !cmd.limited ∧ (s.line .state).head? ≠ some k then some (s.leave .state k false) else none
  | _, _ => none

/-- The limit of the whole command runs out, at the wait for the lock or for its adapters. -/
def cutOff (s : Tasks) (k : ℕ) : Option Tasks :=
  match s.stage k, s.given[k]? with
  | .waiting, some cmd | .switching, some cmd =>
    if cmd.limited then cmd.lock.map fun l => s.leave l k false else none
  | _, _ => none

inductive Act
  | give (cmd : SwitchCommand)
  | poll (k : ℕ)
  | enter (k : ℕ)
  | wrote (k : ℕ) (ok replaced : Bool)
  | joined (k : ℕ)
  | giveUp (k : ℕ)
  | cutOff (k : ℕ)
  -- An adapter's task ends, or its time limit does.
  | answer (i : ℕ)
  deriving DecidableEq, Repr

def step (s : Tasks) : Act → Option Tasks
  | .give cmd => some (s.give cmd)
  | .poll k => s.poll k
  | .enter k => s.enter k
  | .wrote k ok replaced => s.wrote k ok replaced
  | .joined k => s.joined k
  | .giveUp k => s.giveUp k
  | .cutOff k => s.cutOff k
  | .answer i =>
  if i < s.running.length then some { s with running := s.running.eraseIdx i } else none

/-- What a step does, with all that it checked. -/
inductive Move (s : Tasks) : Act → Tasks → Prop
  | give (cmd : SwitchCommand) : Move s (.give cmd) (s.give cmd)
  | invalid {k : ℕ} {settings : Settings} (hk : s.stage k = .spawned)
      (hcmd : s.given[k]? = some (.setSettings settings)) :
      Move s (.poll k) (s.setStage k (.answered false))
  | other {k : ℕ} (hk : s.stage k = .spawned) (hcmd : s.given[k]? = some .other) :
      Move s (.poll k) (s.setStage k (.answered true))
  | queue {k : ℕ} {cmd : SwitchCommand} {l : Lock} (hk : s.stage k = .spawned)
      (hcmd : s.given[k]? = some cmd) (hl : cmd.lock = some l) : Move s (.poll k) (s.queue l k)
  | setReceiving {k : ℕ} {on : Bool} (hk : s.stage k = .waiting)
      (hcmd : s.given[k]? = some (.setReceiving on)) (hhead : (s.line .state).head? = some k) :
      Move s (.enter k) (s.setReceiving k on)
  | setSettings {k : ℕ} {settings : Settings} (hk : s.stage k = .waiting)
      (hcmd : s.given[k]? = some (.setSettings settings)) (hhead : (s.line .state).head? = some k) :
      Move s (.enter k) (s.setStage k .writing)
  | discovery {k : ℕ} {cmd : SwitchCommand} {f : Protocol → Bool → Option Call}
      (hk : s.stage k = .waiting) (hcmd : s.given[k]? = some cmd) (hl : cmd.lock = some .discovery)
      (hhead : (s.line .discovery).head? = some k)
      (hf : ∀ p r, f p r = some .startDiscovery → cmd = .startDiscovery) :
      Move s (.enter k) ((s.each k f).setStage k .switching)
  | restart {k : ℕ} {settings valid : Settings} {replaced : Bool} (hk : s.stage k = .writing)
      (hcmd : s.given[k]? = some (.setSettings settings)) (hv : settings.validate = .ok valid)
      (hon : s.receiving = true) :
      Move s (.wrote k true replaced) (({ s with settings := valid, file := valid }.each k
        fun _ receives => if receives then some .stopReceiving else none).setStage k .stopping)
  | saved {k : ℕ} {settings valid : Settings} {replaced : Bool} (hk : s.stage k = .writing)
      (hcmd : s.given[k]? = some (.setSettings settings)) (hv : settings.validate = .ok valid) :
      Move s (.wrote k true replaced)
        ({ s with settings := valid, file := valid }.leave .state k true)
  | failed {k : ℕ} {settings file : Settings} {replaced : Bool} (hk : s.stage k = .writing)
      (hcmd : s.given[k]? = some (.setSettings settings)) :
      Move s (.wrote k false replaced) ({ s with file := file }.leave .state k false)
  | stopped {k : ℕ} {settings : Settings} (hk : s.stage k = .stopping)
      (hcmd : s.given[k]? = some (.setSettings settings)) (hnone : ∀ t ∈ s.running, t.owner ≠ k) :
      Move s (.joined k) (s.setReceiving k true)
  | joined {k : ℕ} {cmd : SwitchCommand} {l : Lock} (hk : s.stage k = .switching)
      (hcmd : s.given[k]? = some cmd) (hl : cmd.lock = some l)
      (hnone : ∀ t ∈ s.running, t.owner ≠ k) : Move s (.joined k) (s.leave l k true)
  | giveUp {k : ℕ} {cmd : SwitchCommand} (hk : s.stage k = .waiting) (hcmd : s.given[k]? = some cmd)
      (hl : cmd.lock = some .state) (hhead : (s.line .state).head? ≠ some k) :
      Move s (.giveUp k) (s.leave .state k false)
  | cutOff {k : ℕ} {cmd : SwitchCommand} (hk : s.stage k = .waiting ∨ s.stage k = .switching)
      (hcmd : s.given[k]? = some cmd) (hl : cmd.lock = some .discovery) :
      Move s (.cutOff k) (s.leave .discovery k false)
  | answer (i : ℕ) : Move s (.answer i) { s with running := s.running.eraseIdx i }

section Moves

variable {s s' : Tasks} {k : ℕ}

theorem lock_of_limited {cmd : SwitchCommand} {l : Lock} (h : cmd.limited = true)
    (hl : cmd.lock = some l) : l = .discovery := by
  cases cmd <;> simp_all [SwitchCommand.limited, SwitchCommand.lock]

theorem lock_of_not_limited {cmd : SwitchCommand} (h : cmd.limited = false) :
    cmd.lock = some .state := by
  cases cmd <;> simp_all [SwitchCommand.limited, SwitchCommand.lock]

theorem move_poll (h : s.poll k = some s') : Move s (.poll k) s' := by
  unfold poll at h
  split at h
  · rename_i hk hcmd
    split at h
    · obtain rfl := Option.some.inj h
      exact .invalid hk hcmd
    · obtain rfl := Option.some.inj h
      exact .queue hk hcmd rfl
  · rename_i hk hcmd
    obtain rfl := Option.some.inj h
    exact .queue hk hcmd rfl
  · rename_i hk hcmd
    obtain rfl := Option.some.inj h
    exact .queue hk hcmd rfl
  · rename_i hk hcmd
    obtain rfl := Option.some.inj h
    exact .queue hk hcmd rfl
  · rename_i hk hcmd
    obtain rfl := Option.some.inj h
    exact .other hk hcmd
  · cases h

theorem move_enter (h : s.enter k = some s') : Move s (.enter k) s' := by
  unfold enter at h
  split at h
  · rename_i cmd hk hcmd
    split_ifs at h with hhead
    cases cmd with
    | setReceiving on =>
      obtain rfl := Option.some.inj h
      exact .setReceiving hk hcmd hhead
    | setSettings settings =>
      obtain rfl := Option.some.inj h
      exact .setSettings hk hcmd hhead
    | startDiscovery =>
      obtain rfl := Option.some.inj h
      exact .discovery hk hcmd rfl hhead fun _ _ _ => rfl
    | stopDiscovery =>
      obtain rfl := Option.some.inj h
      exact .discovery hk hcmd rfl hhead (by simp)
    | other => cases h
  · cases h

theorem move_wrote {ok replaced : Bool} (h : s.wrote k ok replaced = some s') :
    Move s (.wrote k ok replaced) s' := by
  unfold wrote at h
  split at h
  · rename_i settings hk hcmd
    split at h
    · cases h
    · rename_i valid hv
      cases ok with
      | true =>
        simp only [if_true] at h
        split_ifs at h with hon
        · obtain rfl := Option.some.inj h
          exact .restart hk hcmd hv hon
        · obtain rfl := Option.some.inj h
          exact .saved hk hcmd hv
      | false =>
        obtain rfl := Option.some.inj h
        exact .failed hk hcmd
  · cases h

theorem move_joined (h : s.joined k = some s') : Move s (.joined k) s' := by
  unfold joined at h
  split_ifs at h with hany
  have hnone : ∀ t ∈ s.running, t.owner ≠ k := by simpa using hany
  split at h
  · rename_i settings hk hcmd
    obtain rfl := Option.some.inj h
    exact .stopped hk hcmd hnone
  · rename_i cmd hk hcmd
    obtain ⟨l, hl, rfl⟩ := Option.map_eq_some_iff.mp h
    exact .joined hk hcmd hl hnone
  · cases h

theorem move_giveUp (h : s.giveUp k = some s') : Move s (.giveUp k) s' := by
  unfold giveUp at h
  split at h
  · rename_i cmd hk hcmd
    split_ifs at h with hlim
    obtain rfl := Option.some.inj h
    exact .giveUp hk hcmd (lock_of_not_limited (by simpa using hlim.1)) hlim.2
  · cases h

theorem move_cutOff (h : s.cutOff k = some s') : Move s (.cutOff k) s' := by
  unfold cutOff at h
  split at h
  · rename_i cmd hk hcmd
    split_ifs at h with hlim
    obtain ⟨l, hl, rfl⟩ := Option.map_eq_some_iff.mp h
    obtain rfl := lock_of_limited hlim hl
    exact .cutOff (Or.inl hk) hcmd hl
  · rename_i cmd hk hcmd
    split_ifs at h with hlim
    obtain ⟨l, hl, rfl⟩ := Option.map_eq_some_iff.mp h
    obtain rfl := lock_of_limited hlim hl
    exact .cutOff (Or.inr hk) hcmd hl
  · cases h

theorem move_of_step {a : Act} (h : step s a = some s') : Move s a s' := by
  cases a with
  | give cmd => exact Option.some.inj h ▸ .give cmd
  | poll k => exact move_poll h
  | enter k => exact move_enter h
  | wrote k ok replaced => exact move_wrote h
  | joined k => exact move_joined h
  | giveUp k => exact move_giveUp h
  | cutOff k => exact move_cutOff h
  | answer i =>
    simp only [step] at h
    split_ifs at h
    exact Option.some.inj h ▸ .answer i

end Moves

end Tasks

end Sukkula.Hub
