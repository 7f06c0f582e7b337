import Sukkula.Config.Settings
import Sukkula.Library.Json

/-! # The settings as JSON

The readers that are derived from the structures, and what the settings are
written as. What is written reads back.
-/

namespace Sukkula.Config

open Str Json

def LocalSendSettings.read (v : Json) : Option LocalSendSettings :=
  (fields ["enabled".toList, "pin".toList] v).bind fun get => do
    let enabled ← field get "enabled".toList readBool true
    let pin ← field get "pin".toList (readOption readString) none
    return ⟨enabled, pin⟩

def Visibility.variants : List (Str × Visibility) :=
  [("hidden".toList, .hidden), ("everyone".toList, .everyone)]

def QuickShareSettings.read (v : Json) : Option QuickShareSettings :=
  (fields ["enabled".toList, "visibility".toList, "ble_nudge".toList] v).bind fun get => do
    let enabled ← field get "enabled".toList readBool true
    let visibility ← field get "visibility".toList (readVariant Visibility.variants) .everyone
    let bleNudge ← field get "ble_nudge".toList readBool true
    return ⟨enabled, visibility, bleNudge⟩

def WormholeSettings.read (v : Json) : Option WormholeSettings :=
  (fields ["enabled".toList, "mailbox_url".toList, "relay_url".toList] v).bind fun get => do
    let enabled ← field get "enabled".toList readBool true
    let mailboxUrl ← field get "mailbox_url".toList (readOption readString) none
    let relayUrl ← field get "relay_url".toList (readOption readString) none
    return ⟨enabled, mailboxUrl, relayUrl⟩

def BluetoothSettings.read (v : Json) : Option BluetoothSettings :=
  (fields ["enabled".toList] v).bind fun get => do
    let enabled ← field get "enabled".toList readBool true
    return ⟨enabled⟩

def CrocSettings.read (v : Json) : Option CrocSettings :=
  (fields ["enabled".toList, "relay".toList, "password".toList] v).bind fun get => do
    let enabled ← field get "enabled".toList readBool true
    let relay ← field get "relay".toList (readOption readString) none
    let password ← field get "password".toList (readOption readString) none
    return ⟨enabled, relay, password⟩

def Part.read : (p : Part) → Json → Option p.Value
  | deviceName => readString
  | localsend => LocalSendSettings.read
  | quickshare => QuickShareSettings.read
  | wormhole => WormholeSettings.read
  | bluetooth => BluetoothSettings.read
  | croc => CrocSettings.read
  | logging => readBool

/-- All settings from the values given for them. -/
def Settings.ofFields (given : Str → Option Json) : Option Settings := do
  let deviceName ← field given (Part.key .deviceName) (Part.read .deviceName) []
  let localsend ← field given (Part.key .localsend) (Part.read .localsend) {}
  let quickshare ← field given (Part.key .quickshare) (Part.read .quickshare) {}
  let wormhole ← field given (Part.key .wormhole) (Part.read .wormhole) {}
  let bluetooth ← field given (Part.key .bluetooth) (Part.read .bluetooth) {}
  let croc ← field given (Part.key .croc) (Part.read .croc) {}
  let logging ← field given (Part.key .logging) (Part.read .logging) false
  return ⟨deviceName, localsend, quickshare, wormhole, bluetooth, croc, logging⟩

def Settings.read (v : Json) : Option Settings :=
  (fields (Part.all.map Part.key) v).bind Settings.ofFields

def Visibility.name : Visibility → Str
  | .hidden => "hidden".toList
  | .everyone => "everyone".toList

def optionJson : Option Str → Json
  | none => .null
  | some s => .string s

def Part.toJson : (p : Part) → p.Value → Json
  | deviceName, v => .string v
  | localsend, v => .object [("enabled".toList, .bool v.enabled), ("pin".toList, optionJson v.pin)]
  | quickshare, v =>
    .object [("enabled".toList, .bool v.enabled), ("visibility".toList, .string v.visibility.name),
      ("ble_nudge".toList, .bool v.bleNudge)]
  | wormhole, v =>
    .object [("enabled".toList, .bool v.enabled), ("mailbox_url".toList, optionJson v.mailboxUrl),
      ("relay_url".toList, optionJson v.relayUrl)]
  | bluetooth, v => .object [("enabled".toList, .bool v.enabled)]
  | croc, v =>
    .object [("enabled".toList, .bool v.enabled), ("relay".toList, optionJson v.relay),
      ("password".toList, optionJson v.password)]
  | logging, v => .bool v

def Settings.toJson (s : Settings) : Json :=
  .object (Part.all.map fun p => (p.key, p.toJson (p.get s)))

namespace Part

theorem readOption_optionJson (s : Option Str) : readOption readString (optionJson s) = some s := by
  cases s <;> rfl

theorem readVariant_name (v : Visibility) :
    readVariant Visibility.variants (.string v.name) = some v := by
  cases v <;> decide

theorem read_toJson (p : Part) (v : p.Value) : p.read (p.toJson v) = some v := by
  cases p with
  | deviceName => rfl
  | localsend =>
    simp [read, LocalSendSettings.read, toJson, fields, field, List.lookup_cons, readBool,
      readOption_optionJson]
  | quickshare =>
    simp [read, QuickShareSettings.read, toJson, fields, field, List.lookup_cons, readBool,
      readVariant_name]
  | wormhole =>
    simp [read, WormholeSettings.read, toJson, fields, field, List.lookup_cons, readBool,
      readOption_optionJson]
  | bluetooth => simp [read, BluetoothSettings.read, toJson, fields, field, readBool]
  | croc =>
    simp [read, CrocSettings.read, toJson, fields, field, List.lookup_cons, readBool,
      readOption_optionJson]
  | logging => rfl

theorem regular_read (p : Part) : Regular p.read := by
  cases p with
  | deviceName => exact regular_readString
  | localsend =>
    apply Regular.of_fields (by decide)
    · intro get get' h
      rw [field_reordered regular_readBool (h _),
        field_reordered regular_readString.readOption (h _)]
    · intro get a ha
      obtain ⟨enabled, henabled, ha⟩ := Option.bind_eq_some_iff.mp ha
      obtain ⟨pin, hpin, -⟩ := Option.bind_eq_some_iff.mp ha
      simp only [List.forall_mem_cons]
      exact ⟨fun _ => field_once regular_readBool henabled,
        fun _ => field_once regular_readString.readOption hpin, by simp⟩
  | quickshare =>
    exact .of_three (by decide) regular_readBool (regular_readVariant _) regular_readBool
  | wormhole =>
    exact .of_three (by decide) regular_readBool regular_readString.readOption
      regular_readString.readOption
  | bluetooth =>
    apply Regular.of_fields (by decide)
    · intro get get' h
      rw [field_reordered regular_readBool (h _)]
    · intro get a ha
      obtain ⟨enabled, henabled, -⟩ := Option.bind_eq_some_iff.mp ha
      simp only [List.forall_mem_cons]
      exact ⟨fun _ => field_once regular_readBool henabled, by simp⟩
  | croc =>
    exact .of_three (by decide) regular_readBool regular_readString.readOption
      regular_readString.readOption
  | logging => exact regular_readBool

end Part

namespace Settings

open Config.Part (get)

theorem ofFields_eq_some {given : Str → Option Json} {s : Settings} :
    ofFields given = some s ↔ ∀ p, field given p.key p.read (get {} p) = some (get s p) := by
  constructor
  · intro h
    obtain ⟨deviceName, hname, h⟩ := Option.bind_eq_some_iff.mp h
    obtain ⟨localsend, hlocalsend, h⟩ := Option.bind_eq_some_iff.mp h
    obtain ⟨quickshare, hquickshare, h⟩ := Option.bind_eq_some_iff.mp h
    obtain ⟨wormhole, hwormhole, h⟩ := Option.bind_eq_some_iff.mp h
    obtain ⟨bluetooth, hbluetooth, h⟩ := Option.bind_eq_some_iff.mp h
    obtain ⟨croc, hcroc, h⟩ := Option.bind_eq_some_iff.mp h
    obtain ⟨logging, hlogging, h⟩ := Option.bind_eq_some_iff.mp h
    obtain rfl := Option.some.inj h
    rintro (_ | _)
    · exact hname
    · exact hlocalsend
    · exact hquickshare
    · exact hwormhole
    · exact hbluetooth
    · exact hcroc
    · exact hlogging
  · intro h
    exact Option.bind_eq_some_iff.mpr ⟨_, h .deviceName,
      Option.bind_eq_some_iff.mpr ⟨_, h .localsend,
        Option.bind_eq_some_iff.mpr ⟨_, h .quickshare, Option.bind_eq_some_iff.mpr ⟨_, h .wormhole,
      Option.bind_eq_some_iff.mpr ⟨_, h .bluetooth, Option.bind_eq_some_iff.mpr ⟨_, h .croc,
      Option.bind_eq_some_iff.mpr ⟨_, h .logging, rfl⟩⟩⟩⟩⟩⟩⟩

theorem regular_read : Regular read := by
  apply Regular.of_fields (by decide)
  · intro given given' h
    ext s
    simp only [ofFields_eq_some, field_reordered (Part.regular_read _) (h _)]
  · intro given s hs n hn u hu
    obtain ⟨p, -, rfl⟩ := List.mem_map.mp hn
    exact field_once (Part.regular_read p) (ofFields_eq_some.mp hs p) hu

theorem keys_toJson (s : Settings) :
    (Part.all.map fun p => (p.key, p.toJson (get s p))).map Prod.fst = Part.all.map Part.key :=
  List.map_map

theorem lookup_toJson (s : Settings) (p : Part) :
    (Part.all.map fun p => (p.key, p.toJson (get s p))).lookup p.key =
    some (p.toJson (get s p)) := by
  rw [Assoc.lookup_eq_some (by rw [keys_toJson]; decide)]
  exact List.mem_map.mpr ⟨p, Part.mem_all p, rfl⟩

theorem read_toJson (s : Settings) : read s.toJson = some s := by
  unfold read toJson
  rw [fields_object (by rw [keys_toJson]; decide) (by simp)]
  refine ofFields_eq_some.mpr fun p => ?_
  simp only [field, lookup_toJson]
  exact Part.read_toJson p _

end Settings

end Sukkula.Config
