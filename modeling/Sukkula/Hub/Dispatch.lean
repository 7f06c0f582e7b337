import Sukkula.Config.Settings
import Sukkula.Library.Transition
import Sukkula.LocalSend.Session

/-! # The receive switch, discovery and the settings

What the commands for the switches do, one after the other: each adapter is
started or stopped as the switch and the settings say. Adapters run in tasks of
their own, but a command that is answered before the next is given has waited
for all of them. Every adapter writes down the calls that it had.
-/

namespace Sukkula.Hub

open Config LocalSend Transition

/-- Whether the settings let a protocol run: receive, discover and send. -/
def enabled (settings : Settings) : Protocol → Bool
  | .localSend => settings.localsend.enabled
  | .quickShare => settings.quickshare.enabled
  | .wormhole => settings.wormhole.enabled
  | .bluetooth => settings.bluetooth.enabled
  | .croc => settings.croc.enabled

inductive Call | startReceiving | stopReceiving | startDiscovery | stopDiscovery
  deriving DecidableEq, Repr

/-- What `set_receiving` asks of a receiver. -/
def receiveCall (settings : Settings) (on : Bool) (protocol : Protocol) : Call :=
  if on && enabled settings protocol then .startReceiving else .stopReceiving

/-- What `start_discovery` asks of an adapter. -/
def discoverCall (settings : Settings) (protocol : Protocol) : Call :=
  if enabled settings protocol then .startDiscovery else .stopDiscovery

/-- An adapter, with the calls it had, the last one first. -/
structure Adapter where
  protocol : Protocol
  receives : Bool
  calls : List Call
  deriving DecidableEq, Repr

namespace Adapter

def call (a : Adapter) (c : Call) : Adapter := { a with calls := c :: a.calls }

/-- The last of its calls for receiving was a start. -/
def Receiving (a : Adapter) : Prop :=
  a.calls.find? (fun c => c = .startReceiving ∨ c = .stopReceiving) = some .startReceiving

/-- The last of its calls for discovery was a start. -/
def Discovering (a : Adapter) : Prop :=
  a.calls.find? (fun c => c = .startDiscovery ∨ c = .stopDiscovery) = some .startDiscovery

instance : DecidablePred Receiving := fun a => decEq (a.calls.find? _) _

instance : DecidablePred Discovering := fun a => decEq (a.calls.find? _) _

end Adapter

inductive ProtocolState | off | starting | ready | failed | sendOnly
  deriving DecidableEq, Repr

structure ProtocolStatus where
  protocol : Protocol
  state : ProtocolState
  error : Option ErrorInfo
  deriving DecidableEq, Repr

def statuses (adapters : List Adapter) (settings : Settings) (on : Bool) : List ProtocolStatus :=
  adapters.map fun a =>
    ⟨a.protocol,
      if !a.receives then .sendOnly
      else if on && enabled settings a.protocol then .starting
      else .off,
      none⟩

/-- The commands, as far as they reach the switches. -/
inductive SwitchCommand
  | setReceiving (on : Bool)
  | setSettings (settings : Settings)
  | startDiscovery
  | stopDiscovery
  -- Any other: it reads the settings, or is about an offer, a transfer or one adapter.
  | other
  deriving DecidableEq, Repr

structure Switches where
  adapters : List Adapter
  settings : Settings
  receiving : Bool
  statuses : List ProtocolStatus
  deriving DecidableEq, Repr

namespace Switches

def new (adapters : List (Protocol × Bool)) (settings : Settings) : Switches :=
  let adapters := adapters.map fun (protocol, receives) => ⟨protocol, receives, []⟩
  ⟨adapters, settings, false, Hub.statuses adapters settings false⟩

/-- One call to every adapter that `f` gives one for. -/
def each (h : Switches) (f : Adapter → Option Call) : Switches :=
  { h with adapters := h.adapters.map fun a => (f a).elim a a.call }

/-- The outcome of a start or stop, in the status of its protocol. -/
def settle (l : List ProtocolStatus) (protocol : Protocol)
    (result : Except ErrorInfo ProtocolState) : List ProtocolStatus :=
  match l with
  | [] => []
  | s :: l =>
    if s.protocol = protocol then
      match result with
      | .ok state => { s with state, error := none } :: l
      | .error e => { s with state := .failed, error := some e } :: l
    else s :: settle l protocol result

/-- `set_receiving`. What a start that fails says is in `failure`. -/
def setReceiving (h : Switches) (on : Bool) (failure : Protocol → Option ErrorInfo) : Switches :=
  let receivers := h.adapters.filter (·.receives)
  let results := receivers.map fun a =>
    (a.protocol,
      if receiveCall h.settings on a.protocol = .startReceiving then
        match failure a.protocol with
        | none => .ok .ready
        | some e => .error e
      else .ok .off)
  let h := { h with receiving := on, statuses := Hub.statuses h.adapters h.settings on }
  let h := h.each fun a => if a.receives then some (receiveCall h.settings on a.protocol) else none
  { h with statuses := results.foldl (fun l r => settle l r.1 r.2) h.statuses }

def restartReceiving (h : Switches) (failure : Protocol → Option ErrorInfo) : Switches :=
  (h.each fun a => if a.receives then some .stopReceiving else none).setReceiving true failure

/-- One command and its answer. The write of the settings file gives `written`. -/
def dispatch (h : Switches) (cmd : SwitchCommand) (failure : Protocol → Option ErrorInfo)
    (written : Except ErrorInfo Unit) : Switches × Except ErrorInfo Unit :=
  match cmd with
  | .setReceiving on => (h.setReceiving on failure, .ok ())
  | .setSettings settings =>
    match settings.validate with
    | .error e => (h, .error ⟨.badSettings, String.ofList e.text⟩)
    | .ok settings =>
      match written with
      | .error e => (h, .error e)
      | .ok () =>
        let h := { h with settings }
        (if h.receiving then h.restartReceiving failure else h, .ok ())
  | .startDiscovery => (h.each fun a => some (discoverCall h.settings a.protocol), .ok ())
  | .stopDiscovery => (h.each fun _ => some .stopDiscovery, .ok ())
  | .other => (h, .ok ())

/-- A command, with what the adapters and the file did meanwhile. -/
structure Act where
  cmd : SwitchCommand
  failure : Protocol → Option ErrorInfo
  written : Except ErrorInfo Unit

def step (h : Switches) (a : Act) : Option Switches := some (h.dispatch a.cmd a.failure a.written).1

end Switches

theorem receiveCall_cases (settings : Settings) (on : Bool) (p : Protocol) :
    (receiveCall settings on p = .startReceiving ∧ on = true ∧ enabled settings p = true) ∨
      receiveCall settings on p = .stopReceiving := by
  unfold receiveCall
  split_ifs with h
  · exact Or.inl ⟨rfl, by simpa using h⟩
  · exact Or.inr rfl

theorem discoverCall_cases (settings : Settings) (p : Protocol) :
    (discoverCall settings p = .startDiscovery ∧ enabled settings p = true) ∨
      discoverCall settings p = .stopDiscovery := by
  unfold discoverCall
  split_ifs with h
  · exact Or.inl ⟨rfl, h⟩
  · exact Or.inr rfl

namespace Adapter

variable {a : Adapter}

@[simp] theorem receiving_start : (a.call .startReceiving).Receiving := rfl

@[simp] theorem not_receiving_stop : ¬ (a.call .stopReceiving).Receiving := by
  simp [Receiving, call]

@[simp] theorem discovering_start : (a.call .startDiscovery).Discovering := rfl

@[simp] theorem not_discovering_stop : ¬ (a.call .stopDiscovery).Discovering := by
  simp [Discovering, call]

theorem receiving_call {c : Call} (h : c = .startDiscovery ∨ c = .stopDiscovery) :
    (a.call c).Receiving ↔ a.Receiving := by
  rcases h with rfl | rfl <;> rfl

theorem discovering_call {c : Call} (h : c = .startReceiving ∨ c = .stopReceiving) :
    (a.call c).Discovering ↔ a.Discovering := by
  rcases h with rfl | rfl <;> rfl

end Adapter

namespace Switches

open Adapter (receiving_call discovering_call)

variable {h h' : Switches} {failure : Protocol → Option ErrorInfo}

/-- Nothing that the settings switch off is on. -/
structure Inv (h : Switches) : Prop where
  receiving : ∀ a ∈ h.adapters, a.Receiving →
    h.receiving = true ∧ a.receives = true ∧ enabled h.settings a.protocol = true
  discovering : ∀ a ∈ h.adapters, a.Discovering → enabled h.settings a.protocol = true

theorem mem_each {f : Adapter → Option Call} {a : Adapter} :
    a ∈ (h.each f).adapters ↔ ∃ b ∈ h.adapters, (f b).elim b b.call = a := by
  simp [each]

namespace Inv

theorem new (adapters : List (Protocol × Bool)) (settings : Settings) :
    (Switches.new adapters settings).Inv := by
  constructor
  · intro a ha hr
    obtain ⟨b, -, rfl⟩ := List.mem_map.mp ha
    simp [Adapter.Receiving] at hr
  · intro a ha hd
    obtain ⟨b, -, rfl⟩ := List.mem_map.mp ha
    simp [Adapter.Discovering] at hd

/-- Calls of the receivers leave the discovery of every protocol as it is. -/
theorem discovering_each {call : Adapter → Call}
    (hcall : ∀ a, call a = .startReceiving ∨ call a = .stopReceiving)
    (hd : ∀ a ∈ h.adapters, a.Discovering → enabled h.settings a.protocol = true) :
    ∀ a ∈ (h.each fun a => if a.receives then some (call a) else none).adapters,
      a.Discovering → enabled h.settings a.protocol = true := by
  intro a ha hdisc
  obtain ⟨b, hb, rfl⟩ := mem_each.mp ha
  cases hrec : b.receives with
  | false =>
    simp only [hrec, Bool.false_eq_true, if_false, Option.elim_none] at hdisc ⊢
    exact hd b hb hdisc
  | true =>
    simp only [hrec, if_true, Option.elim_some] at hdisc ⊢
    exact hd b hb ((discovering_call (hcall b)).mp hdisc)

/-- The receivers that `set_receiving` leaves on are the enabled ones. -/
theorem setReceiving (on : Bool) (hreceives : ∀ a ∈ h.adapters, a.Receiving → a.receives = true)
    (hd : ∀ a ∈ h.adapters, a.Discovering → enabled h.settings a.protocol = true) :
    (h.setReceiving on failure).Inv := by
  constructor
  · intro a ha hr
    obtain ⟨b, hb, rfl⟩ := mem_each.mp ha
    cases hrec : b.receives with
    | false =>
      simp only [hrec, Bool.false_eq_true, if_false, Option.elim_none] at hr
      exact absurd (hreceives b hb hr) (by simp [hrec])
    | true =>
      simp only [hrec, if_true, Option.elim_some] at hr ⊢
      rcases receiveCall_cases h.settings on b.protocol with ⟨hc, hon, hen⟩ | hc
      · exact ⟨hon, hrec, hen⟩
      · simp [hc] at hr
  · apply discovering_each _ hd
    intro a
    rcases receiveCall_cases h.settings on a.protocol with ⟨hc, -⟩ | hc
    · exact Or.inl hc
    · exact Or.inr hc

theorem restartReceiving (hreceives : ∀ a ∈ h.adapters, a.Receiving → a.receives = true)
    (hd : ∀ a ∈ h.adapters, a.Discovering → enabled h.settings a.protocol = true) :
    (h.restartReceiving failure).Inv := by
  apply Inv.setReceiving
  · intro a ha hr
    obtain ⟨b, hb, rfl⟩ := mem_each.mp ha
    cases hrec : b.receives with
    | false =>
      simp only [hrec, Bool.false_eq_true, if_false, Option.elim_none] at hr
      exact absurd (hreceives b hb hr) (by simp [hrec])
    | true => simp [hrec] at hr
  · exact discovering_each (fun _ => Or.inr rfl) hd

end Inv

/-- No protocol that new settings switch off is discovering. -/
def LeavesDiscovery (h : Switches) (a : Act) : Prop :=
  ∀ s s', a.cmd = .setSettings s → s.validate = .ok s' → a.written = .ok () →
    ∀ x ∈ h.adapters, x.Discovering → enabled s' x.protocol = true

theorem Inv.step (hi : h.Inv) {a : Act} (ha : LeavesDiscovery h a) (hs : step h a = some h') :
    h'.Inv := by
  obtain rfl := Option.some.inj hs
  have hreceives : ∀ x ∈ h.adapters, x.Receiving → x.receives = true :=
    fun x hx hr => (hi.receiving x hx hr).2.1
  obtain ⟨cmd, failure, written⟩ := a
  cases cmd with
  | setReceiving on => exact .setReceiving on hreceives hi.discovering
  | setSettings settings =>
    simp only [dispatch]
    cases hv : settings.validate with
    | error e => exact hi
    | ok s =>
      cases written with
      | error e => exact hi
      | ok u =>
        have hd : ∀ x ∈ h.adapters, x.Discovering → enabled s x.protocol = true :=
          ha settings s rfl hv rfl
        dsimp only
        split_ifs with hon
        · exact .restartReceiving hreceives hd
        · exact ⟨fun x hx hr => absurd (hi.receiving x hx hr).1 hon, hd⟩
  | startDiscovery =>
    constructor
    · intro x hx hr
      obtain ⟨b, hb, rfl⟩ := mem_each.mp hx
      refine hi.receiving b hb ((receiving_call ?_).mp hr)
      rcases discoverCall_cases h.settings b.protocol with ⟨hc, -⟩ | hc
      · exact Or.inl hc
      · exact Or.inr hc
    · intro x hx hdisc
      obtain ⟨b, hb, rfl⟩ := mem_each.mp hx
      rcases discoverCall_cases h.settings b.protocol with ⟨-, hen⟩ | hc
      · exact hen
      · simp [hc] at hdisc
  | stopDiscovery =>
    constructor
    · intro x hx hr
      obtain ⟨b, hb, rfl⟩ := mem_each.mp hx
      exact hi.receiving b hb ((receiving_call (Or.inr rfl)).mp hr)
    · intro x hx hdisc
      obtain ⟨b, hb, rfl⟩ := mem_each.mp hx
      simp at hdisc
  | other => exact hi

/-- Along every run of commands in which new settings never switch off a protocol that is
discovering, no protocol that the settings switch off receives or discovers. -/
theorem off_is_off {adapters : List (Protocol × Bool)} {settings : Settings} {as : List Act}
    (hrun : exec step (new adapters settings) as = some h)
    (hleaves : Along step LeavesDiscovery (new adapters settings) as) :
    ∀ a ∈ h.adapters, enabled h.settings a.protocol = false → ¬ a.Receiving ∧ ¬ a.Discovering := by
  have hi :=
    exec_invariant_along (fun s a s' hs ha hst => Inv.step hs ha hst) (Inv.new adapters settings)
    hleaves hrun
  intro a ha hoff
  constructor
  · intro hr
    have := (hi.receiving a ha hr).2.2
    simp [hoff] at this
  · intro hd
    have := hi.discovering a ha hd
    simp [hoff] at this

def withoutLocalSend : Settings := { localsend := { enabled := false } }

def Act.of (cmd : SwitchCommand) : Act := ⟨cmd, fun _ => none, .ok ()⟩

theorem off_is_off_once : ∃ h, exec step (new [(.localSend, true)] {}) [.of (.setReceiving true),
      .of .startDiscovery, .of .stopDiscovery, .of (.setSettings withoutLocalSend)] = some h ∧
    (∃ a ∈ h.adapters, a.protocol = .localSend) ∧ enabled h.settings .localSend = false ∧
    ∀ a ∈ h.adapters, a.protocol = .localSend → ¬ a.Receiving ∧ ¬ a.Discovering := by
  have hrun : exec step (new [(.localSend, true)] {}) [.of (.setReceiving true),
      .of .startDiscovery, .of .stopDiscovery, .of (.setSettings withoutLocalSend)] = some _ := rfl
  refine ⟨_, hrun, ⟨_, List.mem_singleton_self _, rfl⟩, by decide, fun a ha hp => ?_⟩
  refine off_is_off hrun ⟨by rintro s s' ⟨⟩, ?_⟩ a ha (by rw [hp]; decide)
  rintro _ ⟨⟩
  refine ⟨by rintro s s' ⟨⟩, ?_⟩
  rintro _ ⟨⟩
  refine ⟨by rintro s s' ⟨⟩, ?_⟩
  rintro _ ⟨⟩
  refine ⟨fun s s' _ _ _ x hx hd => absurd hd ?_, fun _ _ => trivial⟩
  clear hd
  revert x
  decide

/-- Discovery goes on for a protocol that new settings switch off. -/
theorem discovering_while_off : ∃ h, exec step (new [(.localSend, true)] {})
      [.of .startDiscovery, .of (.setSettings withoutLocalSend)] = some h ∧
    ∃ a ∈ h.adapters, enabled h.settings a.protocol = false ∧ a.Discovering :=
  ⟨_, rfl, _, List.mem_singleton_self _, by decide, rfl⟩

end Switches

end Sukkula.Hub
