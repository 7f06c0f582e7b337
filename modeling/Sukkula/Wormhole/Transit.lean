import Sukkula.Config.Servers
import Sukkula.Library.Ipv6
import Sukkula.Library.Json
import Sukkula.Wormhole.Mailbox
import Sukkula.Wormhole.Receive

/-! # Where a transfer may connect

A peer's transit message names addresses and relays. `parse_transit` keeps a
bounded part of it, and `targets` puts our relay first, then at most one of the
peer's and the direct hints that it may name. A name is resolved only when the
connection is made.
-/

namespace Sukkula.LocalSend.IpAddr

/-- `to_canonical`: an IPv4-mapped IPv6 address as the IPv4 address that it is. -/
def canonical : IpAddr → IpAddr
  | .v4 a => .v4 a
  | .v6 a => if a >>> 32 = 0xffff then .v4 (a.setWidth 32) else .v6 a

def isLoopback : IpAddr → Bool
  | .v4 a => a >>> 24 = 127
  | .v6 a => a = 1

def isUnspecified : IpAddr → Bool
  | .v4 a => a = 0
  | .v6 a => a = 0

def isMulticast : IpAddr → Bool
  | .v4 a => a >>> 28 = 0xe
  | .v6 a => a >>> 120 = 0xff

def isBroadcast : IpAddr → Bool
  | .v4 a => a = 0xffffffff
  | .v6 _ => false

/-- `str::parse`: an IPv4 address, or else an IPv6 address, and nothing after it. -/
def parse (s : Str) : Option IpAddr :=
  match Str.readIpv4Addr s with
  | some (a, rest) => if rest = [] then some (.v4 (.ofNat 32 a)) else none
  | none =>
    (Str.parseIpv6 s).map fun groups => .v6 (.ofNat 128 (groups.foldl (fun n g => n * 65536 + g) 0))

end Sukkula.LocalSend.IpAddr

namespace Sukkula.Wormhole

open Json
open LocalSend (IpAddr ErrorInfo)
open Config (Endpoint)

def asArray : Json → Option (List Json)
  | .array items => some items
  | _ => none

structure SocketAddr where
  ip : IpAddr
  port : ℕ
  deriving DecidableEq, Repr

def maxHintsScanned : ℕ := 64

def maxAbilitiesScanned : ℕ := 16

def maxRelayEndpoints : ℕ := 3

def maxHostBytes : ℕ := 253

def maxDirectHints : ℕ := 16

def maxRelayHints : ℕ := 2

/-- The peer's transit message, reduced to what is used. -/
structure TheirTransit where
  direct : Bool := false
  relay : Bool := false
  directHints : List SocketAddr := []
  relays : List (List Endpoint) := []
  deriving DecidableEq, Repr

/-- The host and the port of a `direct-tcp-v1` hint. -/
def tcpHint (h : Json) : Option (Str × ℕ) := do
  let host ← (getLast "hostname".toList h).bind readString
  let port ← (getLast "port".toList h).bind asU64
  if port < 2 ^ 16 ∧ port ≠ 0 then some (host, port) else none

def isLabel (label : Str) : Bool :=
  label ≠ [] ∧ Str.len label ≤ 63 ∧ label.head? ≠ some '-' ∧ label.getLast? ≠ some '-' ∧
    label.all fun c => c.isAlphanum || c == '-'

def isHost (h : Str) : Bool :=
  (IpAddr.parse h).isSome || (h ≠ [] ∧ Str.len h ≤ maxHostBytes ∧ (h.splitOn '.').all isLabel)

def kind (v : Json) : Option Str := (getLast "type".toList v).bind readString

/-- One turn of the loop of `relay_endpoints`. -/
def addEndpoint (out : List Endpoint) (e : Json) : List Endpoint :=
  if maxRelayEndpoints ≤ out.length ∨ kind e ≠ some "direct-tcp-v1".toList then out
  else
    match tcpHint e with
    | some (host, port) => if isHost host ∧ ⟨host, port⟩ ∉ out then out ++ [⟨host, port⟩] else out
    | none => out

def relayEndpoints (h : Json) : List Endpoint :=
  (((getLast "hints".toList h).bind asArray).getD []).take maxHintsScanned |>.foldl addEndpoint []

def addAbility (out : TheirTransit) (a : Json) : TheirTransit :=
  if kind a = some "direct-tcp-v1".toList then { out with direct := true }
  else if kind a = some "relay-v1".toList then { out with relay := true }
  else out

/-- A direct hint names an address, not a host. -/
def addDirect (out : TheirTransit) (h : Json) : TheirTransit :=
  if maxDirectHints ≤ out.directHints.length then out
  else
    match tcpHint h with
    | none => out
    | some (host, port) =>
      match IpAddr.parse host with
      | none => out
      | some ip =>
        if ⟨ip, port⟩ ∈ out.directHints then out
        else { out with directHints := out.directHints ++ [⟨ip, port⟩] }

def addHint (out : TheirTransit) (h : Json) : TheirTransit :=
  if kind h = some "direct-tcp-v1".toList then addDirect out h
  else if kind h = some "relay-v1".toList ∧ out.relays.length < maxRelayHints ∧
    relayEndpoints h ≠ [] then
    { out with relays := out.relays ++ [relayEndpoints h] }
  else out

def malformed : ErrorInfo := protocol "the peer sent malformed transit hints"

def parseTransit : Json → Except ErrorInfo TheirTransit
  | .object entries =>
    let v : Json := .object entries
    let abilities := ((getLast "abilities-v1".toList v).bind asArray).getD []
    let hints := ((getLast "hints-v1".toList v).bind asArray).getD []
    .ok ((hints.take maxHintsScanned).foldl addHint
      ((abilities.take maxAbilitiesScanned).foldl addAbility {}))
  | _ => .error malformed

def maxTargets : ℕ := 4

def maxPeerConnects : ℕ := 3

def maxAddrsPerHost : ℕ := 4

inductive Target
  | direct (addr : SocketAddr)
  | relay (endpoints : List Endpoint) (ours : Bool)
  deriving DecidableEq, Repr

/-- Whether the peer may make us connect to `ip`. -/
def peerMayName (allowLoopback : Bool) (ip : IpAddr) : Bool :=
  let ip := ip.canonical
  if ip.isLoopback then allowLoopback
  else !(ip.isUnspecified || ip.isMulticast || ip.isBroadcast)

def isLocalNet : IpAddr → Bool
  | .v4 a => a >>> 24 = 10 ∨ a >>> 20 = 0xac1 ∨ a >>> 16 = 0xc0a8 ∨ a >>> 16 = 0xa9fe
  | .v6 a => a >>> 121 = 0x7e ∨ a >>> 118 = 0x3fa

/-- The direct hints that the peer may name, those on our own network first. -/
def directTargets (their : TheirTransit) (allowLoopback : Bool) : List Target :=
  ((their.directHints.filter fun a => peerMayName allowLoopback a.ip).mergeSort
    fun a b => !isLocalNet a.ip ≤ !isLocalNet b.ip).map .direct

/-- The peer's relay, if it named another one than ours. -/
def relayTargets (ourRelay : Endpoint) (their : TheirTransit) : List Target :=
  ((their.relays.find? (ourRelay ∉ ·)).map fun endpoints => .relay endpoints false).toList

def targets (ourRelay : Endpoint) (their : TheirTransit) (allowLoopback : Bool) : List Target :=
  ([Target.relay [ourRelay] true] ++ (if their.relay then relayTargets ourRelay their else []) ++
    if their.direct then directTargets their allowLoopback else []).take maxTargets

structure Nameable (allowLoopback : Bool) (ip : IpAddr) : Prop where
  unspecified : ip.canonical.isUnspecified = false
  multicast : ip.canonical.isMulticast = false
  broadcast : ip.canonical.isBroadcast = false
  loopback : ip.canonical.isLoopback = true → allowLoopback = true

theorem not_special_of_isLoopback {ip : IpAddr} (h : ip.isLoopback = true) :
    ip.isUnspecified = false ∧ ip.isMulticast = false ∧ ip.isBroadcast = false := by
  cases ip with
  | v4 a =>
    have h : a >>> 24 = 127 := by simpa [IpAddr.isLoopback] using h
    refine ⟨?_, ?_, ?_⟩ <;> simp only [IpAddr.isUnspecified, IpAddr.isMulticast, IpAddr.isBroadcast,
      decide_eq_false_iff_not]
    · rintro rfl
      exact absurd h (by decide)
    · intro hm
      have : a >>> 28 = (a >>> 24) >>> 4 := by rw [← BitVec.shiftRight_add]
      rw [this, h] at hm
      exact absurd hm (by decide)
    · rintro rfl
      exact absurd h (by decide)
  | v6 a =>
    have h : a = 1 := by simpa [IpAddr.isLoopback] using h
    subst h
    decide

theorem nameable_of_peerMayName {allowLoopback : Bool} {ip : IpAddr}
    (h : peerMayName allowLoopback ip = true) : Nameable allowLoopback ip := by
  unfold peerMayName at h
  dsimp only at h
  split_ifs at h with hloop
  · obtain ⟨hu, hm, hb⟩ := not_special_of_isLoopback hloop
    exact ⟨hu, hm, hb, fun _ => h⟩
  · simp only [Bool.not_eq_true', Bool.or_eq_false_iff] at h
    exact ⟨h.1.1, h.1.2, h.2, fun hl => absurd hl hloop⟩

/-- A target of ours is our relay, and a direct one is an address that the peer may name. -/
def Target.Ok (ourRelay : Endpoint) (allowLoopback : Bool) : Target → Prop
  | .direct addr => peerMayName allowLoopback addr.ip = true
  | .relay endpoints true => endpoints = [ourRelay]
  | .relay _ false => True

theorem target_ok {ourRelay : Endpoint} {their : TheirTransit} {allowLoopback : Bool} {t : Target}
    (h : t ∈ targets ourRelay their allowLoopback) : t.Ok ourRelay allowLoopback := by
  have h := List.mem_of_mem_take h
  rcases List.mem_append.mp h with h | h
  · rcases List.mem_append.mp h with h | h
    · rw [List.mem_singleton.mp h]
      rfl
    · split_ifs at h
      · obtain ⟨endpoints, -, rfl⟩ := Option.map_eq_some_iff.mp (Option.mem_toList.mp h)
        trivial
      · cases h
  · split_ifs at h
    · obtain ⟨addr, haddr, rfl⟩ := List.mem_map.mp h
      exact (List.mem_filter.mp (List.mem_mergeSort.mp haddr)).2
    · cases h

end Sukkula.Wormhole
