import Sukkula.Config.Checks
import Sukkula.Library.Checks
import Sukkula.Text.Display

/-! # The settings

The settings with their defaults, their strictest values and the check that
normalises them. They fall into seven parts, which the check treats apart from
each other.
-/

namespace Sukkula.Config

open Str Text

def maxAliasChars : ℕ := 64

structure LocalSendSettings where
  enabled : Bool := true
  pin : Option Str := none
  deriving DecidableEq, Repr

inductive Visibility | hidden | everyone
  deriving DecidableEq, Repr

structure QuickShareSettings where
  enabled : Bool := true
  visibility : Visibility := .everyone
  bleNudge : Bool := true
  deriving DecidableEq, Repr

structure WormholeSettings where
  enabled : Bool := true
  mailboxUrl : Option Str := none
  relayUrl : Option Str := none
  deriving DecidableEq, Repr

structure BluetoothSettings where
  enabled : Bool := true
  deriving DecidableEq, Repr

structure CrocSettings where
  enabled : Bool := true
  relay : Option Str := none
  password : Option Str := none
  deriving DecidableEq, Repr

structure Settings where
  deviceName : Str := []
  localsend : LocalSendSettings := {}
  quickshare : QuickShareSettings := {}
  wormhole : WormholeSettings := {}
  bluetooth : BluetoothSettings := {}
  croc : CrocSettings := {}
  logging : Bool := false
  deriving DecidableEq, Repr

def LocalSendSettings.lockedDown : LocalSendSettings := ⟨false, none⟩

def QuickShareSettings.lockedDown : QuickShareSettings := ⟨false, .hidden, false⟩

def WormholeSettings.lockedDown : WormholeSettings := ⟨false, none, none⟩

def BluetoothSettings.lockedDown : BluetoothSettings := ⟨false⟩

def CrocSettings.lockedDown : CrocSettings := ⟨false, none, none⟩

namespace Settings

def lockedDown : Settings where
  deviceName := []
  localsend := .lockedDown
  quickshare := .lockedDown
  wormhole := .lockedDown
  bluetooth := .lockedDown
  croc := .lockedDown
  logging := false

def validate (s : Settings) : Except ConfigError Settings := do
  let s := { s with deviceName := display s.deviceName maxAliasChars }
  let pin ← checkPin s.localsend.pin
  let s := { s with localsend.pin := pin }
  let mailboxUrl ← checkUrl s.wormhole.mailboxUrl ["ws://".toList, "wss://".toList] "mailbox".toList
  let s := { s with wormhole.mailboxUrl := mailboxUrl }
  let relayUrl ← checkUrl s.wormhole.relayUrl ["tcp://".toList] "relay".toList
  let s := { s with wormhole.relayUrl := relayUrl }
  let relay ← checkRelay s.croc.relay
  let s := { s with croc.relay := relay }
  let password ← checkRelayPassword s.croc.password
  return { s with croc.password := password }

end Settings

/-- The parts of the settings that a file is read by. -/
inductive Part | deviceName | localsend | quickshare | wormhole | bluetooth | croc | logging
  deriving DecidableEq, Repr

namespace Part

def all : List Part :=
  [deviceName, localsend, quickshare, wormhole, bluetooth, croc, logging]

def key : Part → Str
  | deviceName => "device_name".toList
  | localsend => "localsend".toList
  | quickshare => "quickshare".toList
  | wormhole => "wormhole".toList
  | bluetooth => "bluetooth".toList
  | croc => "croc".toList
  | logging => "logging".toList

def ofKey (key : Str) : Option Part := all.find? (·.key = key)

abbrev Value : Part → Type
  | deviceName => Str
  | localsend => LocalSendSettings
  | quickshare => QuickShareSettings
  | wormhole => WormholeSettings
  | bluetooth => BluetoothSettings
  | croc => CrocSettings
  | logging => Bool

def get (s : Settings) : (p : Part) → p.Value
  | deviceName => s.deviceName
  | localsend => s.localsend
  | quickshare => s.quickshare
  | wormhole => s.wormhole
  | bluetooth => s.bluetooth
  | croc => s.croc
  | logging => s.logging

def put (s : Settings) : (p : Part) → p.Value → Settings
  | deviceName, v => { s with deviceName := v }
  | localsend, v => { s with localsend := v }
  | quickshare, v => { s with quickshare := v }
  | wormhole, v => { s with wormhole := v }
  | bluetooth, v => { s with bluetooth := v }
  | croc, v => { s with croc := v }
  | logging, v => { s with logging := v }

def join (parts : (p : Part) → p.Value) : Settings where
  deviceName := parts deviceName
  localsend := parts localsend
  quickshare := parts quickshare
  wormhole := parts wormhole
  bluetooth := parts bluetooth
  croc := parts croc
  logging := parts logging

/-- What a part of the file that could not be used becomes: a protocol is locked down, the name
and logging have their defaults. -/
def fallback : (p : Part) → p.Value
  | deviceName => []
  | localsend => .lockedDown
  | quickshare => .lockedDown
  | wormhole => .lockedDown
  | bluetooth => .lockedDown
  | croc => .lockedDown
  | logging => false

def IsProtocol : Part → Prop
  | deviceName | logging => False
  | _ => True

end Part

namespace Part

variable {s t : Settings} {p q : Part}

@[simp] theorem mem_all (p : Part) : p ∈ all := by cases p <;> decide

theorem key_injective : Function.Injective key := by
  intro p q h
  cases p <;> cases q <;> first | rfl | exact absurd h (by decide)

theorem ofKey_eq_some {k : Str} : ofKey k = some p ↔ p.key = k := by
  constructor
  · intro h
    simpa using List.find?_some h
  · rintro rfl
    cases p <;> decide

theorem ext (h : ∀ p, get s p = get t p) : s = t := by
  cases s
  cases t
  simpa using ⟨h deviceName, h localsend, h quickshare, h wormhole, h bluetooth, h croc, h logging⟩

@[simp] theorem get_put (v : p.Value) : get (put s p v) p = v := by cases p <;> rfl

theorem get_put_ne (h : q ≠ p) (v : p.Value) : get (put s p v) q = get s q := by
  cases p <;> cases q <;> first | rfl | exact absurd rfl h

@[simp] theorem get_join (parts : (p : Part) → p.Value) : get (join parts) p = parts p := by
  cases p <;> rfl

@[simp] theorem put_get : put s p (get s p) = s := by cases p <;> rfl

/-- What `validate` does to one part. -/
def check : (p : Part) → p.Value → Except ConfigError p.Value
  | deviceName, v => .ok (display v maxAliasChars)
  | localsend, v => (checkPin v.pin).map fun pin => { v with pin }
  | quickshare, v => .ok v
  | wormhole, v =>
    (checkUrl v.mailboxUrl ["ws://".toList, "wss://".toList] "mailbox".toList).bind
    fun mailboxUrl =>
      (checkUrl v.relayUrl ["tcp://".toList] "relay".toList).map fun relayUrl =>
        { v with mailboxUrl, relayUrl }
  | bluetooth, v => .ok v
  | croc, v =>
    (checkRelay v.relay).bind fun relay =>
      (checkRelayPassword v.password).map fun password => { v with relay, password }
  | logging, v => .ok v

theorem check_check {v w : p.Value} (h : check p v = .ok w) : check p w = .ok w := by
  cases p with
  | deviceName =>
    obtain rfl := Except.ok.inj h
    exact congrArg Except.ok (display_display v maxAliasChars)
  | localsend =>
    obtain ⟨pin, hpin, rfl⟩ := map_eq_ok.mp h
    exact map_eq_ok.mpr ⟨pin, Config.check_check hpin, rfl⟩
  | quickshare => rfl
  | wormhole =>
    obtain ⟨mailbox, hmailbox, h⟩ := bind_eq_ok.mp h
    obtain ⟨relay, hrelay, rfl⟩ := map_eq_ok.mp h
    exact bind_eq_ok.mpr ⟨mailbox, Config.check_check hmailbox,
      map_eq_ok.mpr ⟨relay, Config.check_check hrelay, rfl⟩⟩
  | bluetooth => rfl
  | croc =>
    obtain ⟨relay, hrelay, h⟩ := bind_eq_ok.mp h
    obtain ⟨password, hpassword, rfl⟩ := map_eq_ok.mp h
    exact bind_eq_ok.mpr ⟨relay, Config.check_check hrelay,
      map_eq_ok.mpr ⟨password, Config.check_check hpassword, rfl⟩⟩
  | logging => rfl

theorem check_default : check p (get {} p) = .ok (get {} p) := by
  cases p <;> decide

theorem check_fallback : check p (fallback p) = .ok (fallback p) := by
  cases p <;> decide

theorem check_of_validate (h : s.validate = .ok t) (p : Part) :
    check p (get s p) = .ok (get t p) := by
  obtain ⟨pin, hpin, h⟩ := bind_eq_ok.mp h
  obtain ⟨mailbox, hmailbox, h⟩ := bind_eq_ok.mp h
  obtain ⟨relayUrl, hrelayUrl, h⟩ := bind_eq_ok.mp h
  obtain ⟨relay, hrelay, h⟩ := bind_eq_ok.mp h
  obtain ⟨password, hpassword, h⟩ := bind_eq_ok.mp h
  obtain rfl := Except.ok.inj h
  cases p with
  | deviceName => rfl
  | localsend => exact map_eq_ok.mpr ⟨pin, hpin, rfl⟩
  | quickshare => rfl
  | wormhole => exact bind_eq_ok.mpr ⟨mailbox, hmailbox, map_eq_ok.mpr ⟨relayUrl, hrelayUrl, rfl⟩⟩
  | bluetooth => rfl
  | croc => exact bind_eq_ok.mpr ⟨relay, hrelay, map_eq_ok.mpr ⟨password, hpassword, rfl⟩⟩
  | logging => rfl

theorem validate_eq_ok : s.validate = .ok t ↔ ∀ p, check p (get s p) = .ok (get t p) := by
  refine ⟨check_of_validate, fun h => ?_⟩
  obtain ⟨pin, hpin, -⟩ := map_eq_ok.mp (h localsend)
  obtain ⟨mailbox, hmailbox, hw⟩ := bind_eq_ok.mp (h wormhole)
  obtain ⟨relayUrl, hrelayUrl, -⟩ := map_eq_ok.mp hw
  obtain ⟨relay, hrelay, hc⟩ := bind_eq_ok.mp (h croc)
  obtain ⟨password, hpassword, -⟩ := map_eq_ok.mp hc
  have hok : ∃ u, s.validate = .ok u :=
    ⟨_, bind_eq_ok.mpr ⟨pin, hpin,
      bind_eq_ok.mpr ⟨mailbox, hmailbox,
        bind_eq_ok.mpr ⟨relayUrl, hrelayUrl,
          bind_eq_ok.mpr ⟨relay, hrelay, bind_eq_ok.mpr ⟨password, hpassword, rfl⟩⟩⟩⟩⟩⟩
  obtain ⟨u, hu⟩ := hok
  rw [hu, ext fun p => Except.ok.inj ((check_of_validate hu p).symm.trans (h p))]

theorem validate_validate (h : s.validate = .ok t) : t.validate = .ok t :=
  validate_eq_ok.mpr fun p => check_check (check_of_validate h p)

theorem validate_default : ({} : Settings).validate = .ok {} :=
  validate_eq_ok.mpr fun _ => check_default

/-- One part put into settings that are valid is checked on its own. -/
theorem validate_put (h : s.validate = .ok s) {v : p.Value} :
    (put s p v).validate = .ok t ↔ ∃ w, check p v = .ok w ∧ t = put s p w := by
  constructor
  · intro ht
    have hp := check_of_validate ht p
    rw [get_put] at hp
    refine ⟨get t p, hp, ext fun q => ?_⟩
    by_cases hq : q = p
    · subst hq
      rw [get_put]
    · have hs := check_of_validate h q
      have htq := check_of_validate ht q
      rw [get_put_ne hq] at htq ⊢
      exact Except.ok.inj (htq.symm.trans hs)
  · rintro ⟨w, hw, rfl⟩
    refine validate_eq_ok.mpr fun q => ?_
    by_cases hq : q = p
    · subst hq
      rw [get_put, get_put, hw]
    · rw [get_put_ne hq, get_put_ne hq]
      exact check_of_validate h q

end Part

end Sukkula.Config
