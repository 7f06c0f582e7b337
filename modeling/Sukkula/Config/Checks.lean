import Sukkula.Library.Ipv6

/-! # The checks of single settings

A PIN, a server URL, a croc relay and its password. Each is trimmed, counts as
absent when nothing is left, and is taken or refused as it then stands.
-/

namespace Sukkula.Config

open Str

def maxPinChars : ℕ := 16

def maxUrlBytes : ℕ := 256

def maxRelayPasswordBytes : ℕ := 64

inductive ConfigError
  | badPin
  | badUrl (what : Str)
  | badRelay
  | badRelayPassword
  deriving DecidableEq, Repr

def ConfigError.text : ConfigError → Str
  | .badPin => "the LocalSend PIN must be 1 to 16 letters or digits".toList
  | .badUrl what => "the ".toList ++ what ++ " URL is not usable".toList
  | .badRelay => "the croc relay must be a host and an optional port".toList
  | .badRelayPassword => "the croc relay password must be 1 to 64 printable characters".toList

/-- What is left of a setting after trimming, if anything is. -/
def trimmed (setting : Option Str) : Option Str := (setting.map trim).filter (· ≠ [])

/-- A setting that is absent, or usable as `ok` says. -/
def check (ok : Str → Bool) (error : ConfigError) (setting : Option Str) :
    Except ConfigError (Option Str) :=
  match trimmed setting with
  | none => .ok none
  | some s => if ok s then .ok (some s) else .error error

theorem trimmed_trimmed (setting : Option Str) : trimmed (trimmed setting) = trimmed setting := by
  cases ht : trimmed setting with
  | none => rfl
  | some s =>
    obtain ⟨hs, hne⟩ := Option.filter_eq_some_iff.mp ht
    obtain ⟨raw, -, rfl⟩ := Option.map_eq_some_iff.mp hs
    simpa [trimmed, trim_trim] using hne

theorem check_eq_ok {ok : Str → Bool} {error : ConfigError} {setting checked : Option Str} :
    check ok error setting = .ok checked ↔
      checked = trimmed setting ∧ ∀ s, trimmed setting = some s → ok s := by
  unfold check
  rw [eq_comm (a := checked)]
  cases trimmed setting with
  | none => simp
  | some s => by_cases hok : ok s <;> simp [hok]

theorem check_check {ok : Str → Bool} {error : ConfigError} {setting checked : Option Str}
    (h : check ok error setting = .ok checked) : check ok error checked = .ok checked := by
  obtain ⟨rfl, hok⟩ := check_eq_ok.mp h
  apply check_eq_ok.mpr
  rw [trimmed_trimmed]
  exact ⟨rfl, hok⟩

def checkPin : Option Str → Except ConfigError (Option Str) :=
  check (fun pin => pin.length ≤ maxPinChars && pin.all Char.isAlphanum) .badPin

/-- The host of a URL with one of the schemes, and its port. -/
def authority (schemes : List Str) (url : Str) : Str :=
  match schemes.find? fun s => s.isPrefixOf (url.map Char.toLower) with
  | some s => (url.drop s.length).takeWhile (· ≠ '/')
  | none => []

def isAsciiGraphic (c : Char) : Bool := 0x21 ≤ c.toNat && c.toNat ≤ 0x7E

def urlOk (schemes : List Str) (url : Str) : Bool :=
  let hasScheme := schemes.any fun s => len s < len url && s.isPrefixOf (url.map Char.toLower)
  let printable := url.all isAsciiGraphic
  let authority := authority schemes url
  -- No credentials, no query and no fragment.
  let plain := authority ≠ [] && !authority.contains '@' && !url.contains '?' && !url.contains '#'
  len url ≤ maxUrlBytes && hasScheme && printable && plain

def checkUrl (url : Option Str) (schemes : List Str) (what : Str) :
    Except ConfigError (Option Str) :=
  check (urlOk schemes) (.badUrl what) url

def crocPort : ℕ := 9009

/-- A host and the port text after it, if there is one. -/
def relayParts (relay : Str) : Option (Str × Option Str) :=
  match relay with
  | '[' :: rest => do
    let (v6, after) ← splitOnce ']' rest
    let _ ← parseIpv6 v6
    match after with
    | [] => some (v6, none)
    | ':' :: p => some (v6, some p)
    | _ => none
  | _ =>
    match splitOnce ':' relay with
    | some (h, p) => some (h, some p)
    | none => some (relay, none)

def relayPort : Option Str → Option ℕ
  | none => some crocPort
  | some p =>
    if p ≠ [] ∧ len p ≤ 5 ∧ p.all Char.isDigit then
      let port := p.foldl (fun n c => n * 10 + (c.toNat - '0'.toNat)) 0
      if port < 2 ^ 16 ∧ 0 < port then some port else none
    else none

def relayHostPort (relay : Str) : Option (Str × ℕ) := do
  let (host, port) ← relayParts relay
  let port ← relayPort port
  let hostOk := host ≠ [] && ((parseIpv6 host).isSome ||
    host.all fun c => c.isAlphanum || c == '.' || c == '-')
  if hostOk then some (host, port) else none

def checkRelay : Option Str → Except ConfigError (Option Str) :=
  check (fun relay => len relay ≤ maxUrlBytes && (relayHostPort relay).isSome) .badRelay

def checkRelayPassword : Option Str → Except ConfigError (Option Str) :=
  check (fun password => len password ≤ maxRelayPasswordBytes &&
    password.all fun c => 0x20 ≤ c.toNat && c.toNat < 0x7F) .badRelayPassword

example : checkUrl (some " WSS://relay.example/v1 ".toList) ["ws://".toList, "wss://".toList]
    "mailbox".toList = .ok (some "WSS://relay.example/v1".toList) := by decide +kernel

example : relayHostPort "[2001:db8::1]:65535".toList = some ("2001:db8::1".toList, 65535) := by
  decide +kernel

example : relayHostPort "croc.example:0".toList = none := by decide +kernel

end Sukkula.Config
