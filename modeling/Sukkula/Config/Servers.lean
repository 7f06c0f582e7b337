import Sukkula.Config.Settings
import Sukkula.LocalSend.Session

/-! # The servers that the settings name

The settings are checked when they are saved, and their servers once more where
an adapter uses them: a croc relay by the same check, the two URLs of Magic
Wormhole by a full parser. Of the parser only what it documents is assumed. It
decides which of the saved URLs can be used.
-/

namespace Sukkula.Config

open Str LocalSend

/-- The host of a URL. An address is given as it is shown. -/
inductive Host
  | domain (name : Str)
  | ipv4 (shown : Str)
  | ipv6 (shown : Str)
  deriving DecidableEq, Repr

structure Url where
  scheme : Str
  username : Str := []
  password : Option Str := none
  host : Option Host
  port : Option ℕ := none
  portOrKnownDefault : Option ℕ := none
  path : Str := []
  query : Option Str := none
  fragment : Option Str := none
  deriving DecidableEq, Repr

/-- The host as a connectable text: IPv6 literals without their brackets. -/
def hostString (url : Url) : Option Str :=
  url.host.map fun
    | .domain d => d
    | .ipv4 a => a
    | .ipv6 a => a

structure Endpoint where
  host : Str
  port : ℕ
  deriving DecidableEq, Repr

structure Servers where
  mailbox : Url
  customMailbox : Bool
  relay : Endpoint
  deriving DecidableEq, Repr

def defaultRendezvousServer : Str := "ws://relay.magic-wormhole.io:4000/v1".toList

def defaultRelayServer : Str := "tcp://transit.magic-wormhole.io:4001".toList

def badUrl (what : String) : ErrorInfo := ⟨.badSettings, "the " ++ what ++ " URL is not usable"⟩

section Checks

variable (parse : Str → Option Url)

def plainUrl (raw : Str) (what : String) : Except ErrorInfo Url :=
  if raw = [] ∨ maxUrlBytes < len raw ∨ ¬ raw.all isAsciiGraphic then .error (badUrl what)
  else match parse raw with
    | none => .error (badUrl what)
    | some url =>
      let ok := url.username = [] ∧ url.password = none ∧ url.fragment = none ∧ url.query = none ∧
        (hostString url).any (· ≠ [])
      if ok then .ok url else .error (badUrl what)

/-- A `ws://` or `wss://` URL with a host, and no credentials. -/
def checkMailboxUrl (raw : Str) : Except ErrorInfo Url := do
  let url ← plainUrl parse raw "mailbox"
  if (url.scheme = "ws".toList ∨ url.scheme = "wss".toList) ∧ url.portOrKnownDefault.isSome then
    .ok url
  else .error (badUrl "mailbox")

/-- A `tcp://host:port` URL with nothing else. -/
def checkRelayUrl (raw : Str) : Except ErrorInfo Endpoint := do
  let url ← plainUrl parse raw "relay"
  let pathOk := url.path = [] ∨ url.path = ['/']
  match hostString url, url.port with
  | some host, some port =>
    if url.scheme = "tcp".toList ∧ pathOk ∧ port ≠ 0 then .ok ⟨host, port⟩
    else .error (badUrl "relay")
  | _, _ => .error (badUrl "relay")

def Servers.fromSettings (s : WormholeSettings) : Except ErrorInfo Servers := do
  let custom := trimmed s.mailboxUrl
  let mailbox ← checkMailboxUrl parse (custom.getD defaultRendezvousServer)
  let relay ← checkRelayUrl parse ((trimmed s.relayUrl).getD defaultRelayServer)
  return ⟨mailbox, custom.isSome, relay⟩

end Checks

structure Relay where
  host : Str
  port : ℕ
  password : Str
  deriving DecidableEq, Repr

inductive Relays
  | publicRelays (password : Str)
  | own (relay : Relay)
  deriving DecidableEq, Repr

def defaultPassword : Str := "pass123".toList

def Relays.fromSettings (s : CrocSettings) : Except ErrorInfo Relays :=
  let password := s.password.getD defaultPassword
  match s.relay with
  | none => .ok (.publicRelays password)
  | some r =>
    match relayHostPort r with
    | some (host, port) => .ok (.own ⟨host, port, password⟩)
    | none => .error ⟨.badSettings, "the croc relay"⟩

theorem Relays.fromSettings_of_checkRelay {relay : Option Str} {s : CrocSettings}
    (h : checkRelay relay = .ok s.relay) : ∃ r, Relays.fromSettings s = .ok r := by
  obtain ⟨hr, hok⟩ := check_eq_ok.mp h
  unfold Relays.fromSettings
  cases hs : s.relay with
  | none => exact ⟨_, rfl⟩
  | some r =>
    have hparts := hok r (hr.symm.trans hs)
    rw [Bool.and_eq_true] at hparts
    obtain ⟨⟨host, port⟩, hp⟩ := Option.isSome_iff_exists.mp hparts.2
    simp only [hp]
    exact ⟨_, rfl⟩

inductive Scheme | ws | wss | tcp
  deriving DecidableEq, Repr

namespace Scheme

def text : Scheme → Str
  | ws => "ws".toList
  | wss => "wss".toList
  | tcp => "tcp".toList

/-- In a URL with a special scheme, a backslash is a slash. -/
def isSpecial : Scheme → Bool
  | ws | wss => true
  | tcp => false

def opening (s : Scheme) : Str := s.text ++ "://".toList

end Scheme

/-- Where credentials stand, in what follows `://`. -/
def userinfoPart (special : Bool) (rest : Str) : Str :=
  let slash c := c == '/' || special && c == '\\'
  (if special then rest.dropWhile slash else rest).takeWhile fun c => !slash c &&
    c != '?' && c != '#'

/-- What is documented of the URLs that are parsed. -/
structure Documented (parse : Str → Option Url) : Prop where
  scheme : ∀ raw url, raw.all isAsciiGraphic → parse raw = some url →
    ∀ s : Scheme, s.opening <+: raw.map Char.toLower → url.scheme = s.text
  -- Credentials end in an `@` before the path.
  credentials : ∀ raw url, raw.all isAsciiGraphic → parse raw = some url →
    ∀ s : Scheme, s.opening <+: raw.map Char.toLower →
      '@' ∉ userinfoPart s.isSpecial (raw.drop s.opening.length) →
        url.username = [] ∧ url.password = none
  query : ∀ raw url, parse raw = some url → '?' ∉ raw → url.query = none
  fragment : ∀ raw url, parse raw = some url → '#' ∉ raw → url.fragment = none
  -- A WebSocket has a host, and so has everything with a port.
  host : ∀ raw url, parse raw = some url →
    url.scheme = "ws".toList ∨ url.scheme = "wss".toList ∨ url.port ≠ none →
      (hostString url).any (· ≠ [])
  knownPort : ∀ raw url, parse raw = some url →
    url.scheme = "ws".toList ∨ url.scheme = "wss".toList → url.portOrKnownDefault.isSome
  defaultRendezvousServer : (parse defaultRendezvousServer).isSome
  defaultRelayServer : ∃ url, parse defaultRelayServer = some url ∧ url.port = some 4001 ∧
    url.path = []

def mailboxSchemes : List Scheme := [.ws, .wss]

def relaySchemes : List Scheme := [.tcp]

/-- The parser reads a mailbox URL, without credentials. It could find some where nothing but
backslashes stands between the scheme and the next slash: they are slashes to it, and were not when
the settings were checked. -/
def MailboxReadable (parse : Str → Option Url) (raw : Str) : Prop :=
  ∃ url, parse raw = some url ∧
    ((authority (mailboxSchemes.map Scheme.opening) raw).all (· == '\\') → url.username = [] ∧
      url.password = none)

/-- The parser reads a relay URL, with a port and no path. -/
def RelayReadable (parse : Str → Option Url) (raw : Str) : Prop :=
  ∃ url, parse raw = some url ∧ (∃ port, url.port = some port ∧ port ≠ 0) ∧
    (url.path = [] ∨ url.path = ['/'])

section Parts

variable {rest : Str}

theorem mem_takeWhile_of_imp {p q : Char → Bool} (h : ∀ c, p c → q c) {c : Char} {l : Str}
    (hc : c ∈ l.takeWhile p) : c ∈ l.takeWhile q := by
  induction l with
  | nil => simp at hc
  | cons x xs ih =>
    by_cases hx : p x
    · simp only [List.takeWhile_cons, hx, h x hx, if_true, List.mem_cons] at hc ⊢
      exact hc.imp_right ih
    · simp [hx] at hc

theorem notMem_userinfoPart (h : '@' ∉ rest.takeWhile (· ≠ '/')) :
    '@' ∉ userinfoPart false rest := by
  refine mt (mem_takeWhile_of_imp fun c hc => ?_) h
  simp at hc ⊢
  exact hc.1.1

/-- Slashes are skipped up to a character that is none, where that comes first. -/
theorem notMem_userinfoPart_special (h : '@' ∉ rest.takeWhile (· ≠ '/'))
    (hb : ¬ (rest.takeWhile (· ≠ '/')).all (· == '\\')) : '@' ∉ userinfoPart true rest := by
  induction rest with
  | nil => simp at hb
  | cons c cs ih =>
    by_cases hslash : c = '/'
    · simp [hslash] at hb
    · by_cases hback : c = '\\'
      · subst hback
        have hpart : userinfoPart true ('\\' :: cs) = userinfoPart true cs := by
          simp [userinfoPart]
        rw [hpart]
        apply ih
        · simpa using h
        · simpa using hb
      · have hpart : userinfoPart true (c :: cs) = (c :: cs).takeWhile fun c =>
            !(c == '/' || c == '\\') && c != '?' && c != '#' := by
          simp [userinfoPart, hslash, hback]
        rw [hpart]
        refine mt (mem_takeWhile_of_imp fun c hc => ?_) h
        simp at hc ⊢
        exact hc.1.1.1

end Parts

structure Checked (s : Scheme) (raw : Str) : Prop where
  opening : s.opening <+: raw.map Char.toLower
  noAt : '@' ∉ (raw.drop s.opening.length).takeWhile (· ≠ '/')
  noQuery : '?' ∉ raw
  noFragment : '#' ∉ raw
  size : len raw ≤ maxUrlBytes
  graphic : raw.all isAsciiGraphic

theorem checked_of_urlOk {schemes : List Scheme} {raw : Str}
    (h : urlOk (schemes.map Scheme.opening) raw) : ∃ s ∈ schemes, Checked s raw ∧
      authority (schemes.map Scheme.opening) raw =
        (raw.drop s.opening.length).takeWhile (· ≠ '/') := by
  simp only [urlOk, Bool.and_eq_true, decide_eq_true_eq, Bool.not_eq_true', List.contains_eq_mem,
    decide_eq_false_iff_not] at h
  obtain ⟨⟨⟨hsize, -⟩, hgraphic⟩, ⟨⟨hne, hat⟩, hquery⟩, hfragment⟩ := h
  unfold authority at hne hat ⊢
  cases hf : (schemes.map Scheme.opening).find? fun s => s.isPrefixOf (raw.map Char.toLower) with
  | none => simp [hf] at hne
  | some o =>
    simp only [hf] at hat ⊢
    obtain ⟨s, hs, rfl⟩ := List.mem_map.mp (List.mem_of_find?_eq_some hf)
    have ho : s.opening <+: raw.map Char.toLower := by simpa using List.find?_some hf
    exact ⟨s, hs, ⟨ho, hat, hquery, hfragment, hsize, hgraphic⟩, rfl⟩

section Use

variable {parse : Str → Option Url} {raw : Str} {url : Url} {s : Scheme} (hparse : Documented parse)

theorem Checked.ne_nil (h : Checked s raw) : raw ≠ [] := by
  rintro rfl
  have := h.opening
  simp [Scheme.opening] at this

include hparse in
/-- Of a URL that was taken, the parser has to find no credentials and a host. -/
theorem Checked.plainUrl_eq_ok (h : Checked s raw) (what : String) :
    plainUrl parse raw what = .ok url ↔ parse raw = some url ∧ url.username = [] ∧
      url.password = none ∧ (hostString url).any (· ≠ []) := by
  have hsize : ¬ maxUrlBytes < len raw := Nat.not_lt.mpr h.size
  simp only [plainUrl, h.ne_nil, hsize, h.graphic, not_true, or_self, if_false]
  cases hp : parse raw with
  | none => simp
  | some u =>
    have hquery := hparse.query raw u hp h.noQuery
    have hfragment := hparse.fragment raw u hp h.noFragment
    simp only [hquery, hfragment, true_and]
    constructor
    · intro hok
      split_ifs at hok with hc
      obtain rfl := Except.ok.inj hok
      exact ⟨rfl, hc⟩
    · rintro ⟨hu, hc⟩
      obtain rfl := Option.some.inj hu
      rw [if_pos hc]

include hparse in
theorem checkMailboxUrl_iff (h : urlOk (mailboxSchemes.map Scheme.opening) raw) :
    (∃ url, checkMailboxUrl parse raw = .ok url) ↔ MailboxReadable parse raw := by
  obtain ⟨s, hs, hc, hauth⟩ := checked_of_urlOk h
  have hspecial : s.isSpecial = true := by
    rcases List.mem_pair.mp hs with rfl | rfl <;> rfl
  have hscheme : s.text = "ws".toList ∨ s.text = "wss".toList := by
    rcases List.mem_pair.mp hs with rfl | rfl
    · exact Or.inl rfl
    · exact Or.inr rfl
  constructor
  · rintro ⟨url, hurl⟩
    obtain ⟨u, hu, -⟩ := bind_eq_ok.mp hurl
    obtain ⟨hp, hname, hpass, -⟩ := (hc.plainUrl_eq_ok hparse _).mp hu
    exact ⟨u, hp, fun _ => ⟨hname, hpass⟩⟩
  · rintro ⟨url, hp, hback⟩
    have hws : url.scheme = "ws".toList ∨ url.scheme = "wss".toList := by
      rw [hparse.scheme raw url hc.graphic hp s hc.opening]
      exact hscheme
    have hcred : url.username = [] ∧ url.password = none := by
      by_cases hb : (authority (mailboxSchemes.map Scheme.opening) raw).all (· == '\\')
      · exact hback hb
      · apply hparse.credentials raw url hc.graphic hp s hc.opening
        rw [hspecial]
        rw [hauth] at hb
        exact notMem_userinfoPart_special hc.noAt hb
    have hhost := hparse.host raw url hp (hws.imp_right Or.inl)
    have hplain : plainUrl parse raw "mailbox" = .ok url :=
      (hc.plainUrl_eq_ok hparse _).mpr ⟨hp, hcred.1, hcred.2, hhost⟩
    refine ⟨url, bind_eq_ok.mpr ⟨url, hplain, if_pos ⟨hws, hparse.knownPort raw url hp hws⟩⟩⟩

include hparse in
theorem checkRelayUrl_iff (h : urlOk (relaySchemes.map Scheme.opening) raw) :
    (∃ relay, checkRelayUrl parse raw = .ok relay) ↔ RelayReadable parse raw := by
  obtain ⟨s, hs, hc, -⟩ := checked_of_urlOk h
  obtain rfl := List.mem_singleton.mp hs
  constructor
  · rintro ⟨relay, hrelay⟩
    obtain ⟨url, hu, hrelay⟩ := bind_eq_ok.mp hrelay
    obtain ⟨hp, -⟩ := (hc.plainUrl_eq_ok hparse _).mp hu
    simp only at hrelay
    split at hrelay
    · rename_i port _ hport
      split_ifs at hrelay with hok
      exact ⟨url, hp, ⟨port, hport, hok.2.2⟩, hok.2.1⟩
    · cases hrelay
  · rintro ⟨url, hp, ⟨port, hport, hne⟩, hpath⟩
    have hscheme := hparse.scheme raw url hc.graphic hp _ hc.opening
    have hcred :=
      hparse.credentials raw url hc.graphic hp _ hc.opening (notMem_userinfoPart hc.noAt)
    have hhost := hparse.host raw url hp (Or.inr (Or.inr (by simp [hport])))
    have hplain : plainUrl parse raw "relay" = .ok url :=
      (hc.plainUrl_eq_ok hparse _).mpr ⟨hp, hcred.1, hcred.2, hhost⟩
    cases hh : hostString url with
    | none => simp [hh] at hhost
    | some host =>
      refine ⟨⟨host, port⟩, bind_eq_ok.mpr ⟨url, hplain, ?_⟩⟩
      simp only [hh, hport]
      exact if_pos ⟨hscheme, hpath, hne⟩

theorem plainUrl_error {what : String} {e : ErrorInfo} (h : plainUrl parse raw what = .error e) :
    e = badUrl what := by
  unfold plainUrl at h
  split_ifs at h
  · exact (Except.error.inj h).symm
  · cases hp : parse raw with
    | none =>
      simp only [hp] at h
      exact (Except.error.inj h).symm
    | some url =>
      simp only [hp] at h
      split_ifs at h
      exact (Except.error.inj h).symm

theorem code_of_checkMailboxUrl {e : ErrorInfo} (h : checkMailboxUrl parse raw = .error e) :
    e.code = .badSettings := by
  rcases bind_eq_error.mp h with h | ⟨url, -, h⟩
  · rw [plainUrl_error h]
    rfl
  · split_ifs at h
    rw [← Except.error.inj h]
    rfl

theorem code_of_checkRelayUrl {e : ErrorInfo} (h : checkRelayUrl parse raw = .error e) :
    e.code = .badSettings := by
  rcases bind_eq_error.mp h with h | ⟨url, -, h⟩
  · rw [plainUrl_error h]
    rfl
  · simp only at h
    split at h
    · split_ifs at h
      rw [← Except.error.inj h]
      rfl
    · rw [← Except.error.inj h]
      rfl

theorem Servers.code_of_fromSettings {w : WormholeSettings} {e : ErrorInfo}
    (h : Servers.fromSettings parse w = .error e) : e.code = .badSettings := by
  rcases bind_eq_error.mp h with h | ⟨mailbox, -, h⟩
  · exact code_of_checkMailboxUrl h
  · rcases bind_eq_error.mp h with h | ⟨relay, -, h⟩
    · exact code_of_checkRelayUrl h
    · cases h

theorem Servers.exists_fromSettings_iff {w : WormholeSettings} :
    (∃ servers, Servers.fromSettings parse w = .ok servers) ↔
      (∃ url, checkMailboxUrl parse ((trimmed w.mailboxUrl).getD Config.defaultRendezvousServer) =
        .ok url) ∧ ∃ relay, checkRelayUrl parse
        ((trimmed w.relayUrl).getD Config.defaultRelayServer) = .ok relay := by
  constructor
  · rintro ⟨servers, h⟩
    obtain ⟨mailbox, hmailbox, h⟩ := bind_eq_ok.mp h
    obtain ⟨relay, hrelay, -⟩ := bind_eq_ok.mp h
    exact ⟨⟨mailbox, hmailbox⟩, relay, hrelay⟩
  · rintro ⟨⟨mailbox, hmailbox⟩, relay, hrelay⟩
    exact ⟨_, bind_eq_ok.mpr ⟨mailbox, hmailbox, bind_eq_ok.mpr ⟨relay, hrelay, rfl⟩⟩⟩

include hparse in
theorem mailboxReadable_default : MailboxReadable parse defaultRendezvousServer := by
  obtain ⟨url, hurl⟩ := Option.isSome_iff_exists.mp hparse.defaultRendezvousServer
  exact ⟨url, hurl, fun h => absurd h (by decide)⟩

include hparse in
theorem relayReadable_default : RelayReadable parse defaultRelayServer := by
  obtain ⟨url, hurl, hport, hpath⟩ := hparse.defaultRelayServer
  exact ⟨url, hurl, ⟨4001, hport, by decide⟩, Or.inl hpath⟩

/-- A setting or its default is as good as the setting, where the default is good. -/
theorem getD_trimmed_iff {P : Str → Prop} {setting : Option Str} {default : Str} (hd : P default) :
    P ((trimmed setting).getD default) ↔ ∀ raw, trimmed setting = some raw → P raw := by
  cases trimmed setting with
  | none => simp [hd]
  | some raw => simp

theorem wormhole_of_validate {s v : Settings} (hv : s.validate = .ok v) :
    checkUrl s.wormhole.mailboxUrl (mailboxSchemes.map Scheme.opening) "mailbox".toList =
        .ok v.wormhole.mailboxUrl ∧
      checkUrl s.wormhole.relayUrl (relaySchemes.map Scheme.opening) "relay".toList =
        .ok v.wormhole.relayUrl := by
  obtain ⟨mailbox, hmailbox, h⟩ := bind_eq_ok.mp (Part.check_of_validate hv .wormhole)
  obtain ⟨relay, hrelay, h⟩ := map_eq_ok.mp h
  have hw : v.wormhole = { s.wormhole with mailboxUrl := mailbox, relayUrl := relay } := h.symm
  rw [hw]
  exact ⟨hmailbox, hrelay⟩

theorem checkRelay_of_validate {s v : Settings} (hv : s.validate = .ok v) :
    checkRelay s.croc.relay = .ok v.croc.relay := by
  obtain ⟨relay, hrelay, h⟩ := bind_eq_ok.mp (Part.check_of_validate hv .croc)
  obtain ⟨password, -, h⟩ := map_eq_ok.mp h
  have hc : v.croc = { s.croc with relay := relay, password := password } := h.symm
  rw [hc]
  exact hrelay

/-- The servers of settings that were taken can be used if and only if the URLs that they name are
read by the parser; the relay of croc always can. -/
theorem servers_usable_iff (parse : Str → Option Url) (hparse : Documented parse) (s v : Settings)
    (hv : s.validate = .ok v) :
    (∃ relays, Relays.fromSettings v.croc = .ok relays) ∧
      ((∃ servers, Servers.fromSettings parse v.wormhole = .ok servers) ↔
        (∀ raw, trimmed s.wormhole.mailboxUrl = some raw → MailboxReadable parse raw) ∧
          ∀ raw, trimmed s.wormhole.relayUrl = some raw → RelayReadable parse raw) ∧
      ∀ e, Servers.fromSettings parse v.wormhole = .error e → e.code = .badSettings := by
  obtain ⟨hmailbox, hrelay⟩ := wormhole_of_validate hv
  obtain ⟨hm, hmok⟩ := check_eq_ok.mp hmailbox
  obtain ⟨hr, hrok⟩ := check_eq_ok.mp hrelay
  refine ⟨Relays.fromSettings_of_checkRelay (checkRelay_of_validate hv), ?_,
    fun e => Servers.code_of_fromSettings⟩
  have hdefault : urlOk (mailboxSchemes.map Scheme.opening) defaultRendezvousServer ∧
      urlOk (relaySchemes.map Scheme.opening) defaultRelayServer := by
    decide
  rw [Servers.exists_fromSettings_iff, hm, hr, trimmed_trimmed, trimmed_trimmed,
    checkMailboxUrl_iff hparse ((getD_trimmed_iff hdefault.1).mpr hmok),
    checkRelayUrl_iff hparse ((getD_trimmed_iff hdefault.2).mpr hrok),
    getD_trimmed_iff (mailboxReadable_default hparse),
    getD_trimmed_iff (relayReadable_default hparse)]

end Use

/-- A URL with nothing but a host, a port and a path. -/
def plainAt (scheme host : String) (port : Option ℕ) (path : String) : Url where
  scheme := scheme.toList
  host := some (.domain host.toList)
  port := port
  portOrKnownDefault := port
  path := path.toList

def knownUrls : List (Str × Url) := [
  (defaultRendezvousServer, plainAt "ws" "relay.magic-wormhole.io" (some 4000) "/v1"),
  (defaultRelayServer, plainAt "tcp" "transit.magic-wormhole.io" (some 4001) ""),
  ("tcp://r.example:9".toList, plainAt "tcp" "r.example" (some 9) ""),
  ("tcp://r.example".toList, plainAt "tcp" "r.example" none "")]

def parseKnown (raw : Str) : Option Url := (knownUrls.find? (·.1 = raw)).map (·.2)

theorem mem_knownUrls {raw : Str} {url : Url} (h : parseKnown raw = some url) :
    (raw, url) ∈ knownUrls := by
  obtain ⟨⟨r, u⟩, hf, rfl⟩ := Option.map_eq_some_iff.mp h
  obtain rfl : r = raw := by simpa using List.find?_some hf
  exact List.mem_of_find?_eq_some hf

theorem documented_parseKnown : Documented parseKnown where
  scheme raw url _ h s := by
    have hall : ∀ p ∈ knownUrls, s.opening <+: p.1.map Char.toLower → p.2.scheme = s.text := by
      cases s <;> decide
    exact hall _ (mem_knownUrls h)
  credentials raw url _ h s _ _ := by
    have hall : ∀ p ∈ knownUrls, p.2.username = [] ∧ p.2.password = none := by decide
    exact hall _ (mem_knownUrls h)
  query raw url h _ := by
    have hall : ∀ p ∈ knownUrls, p.2.query = none := by decide
    exact hall _ (mem_knownUrls h)
  fragment raw url h _ := by
    have hall : ∀ p ∈ knownUrls, p.2.fragment = none := by decide
    exact hall _ (mem_knownUrls h)
  host raw url h _ := by
    have hall : ∀ p ∈ knownUrls, (hostString p.2).any (· ≠ []) := by decide
    exact hall _ (mem_knownUrls h)
  knownPort raw url h := by
    have hall : ∀ p ∈ knownUrls, p.2.scheme = "ws".toList ∨ p.2.scheme = "wss".toList →
        p.2.portOrKnownDefault.isSome := by decide
    exact hall _ (mem_knownUrls h)
  defaultRendezvousServer := by decide
  defaultRelayServer := ⟨_, rfl, rfl, rfl⟩

def relaySettings (url : Str) : Settings := { wormhole.relayUrl := some url }

theorem servers_usable_iff_port : ∃ servers,
    Servers.fromSettings parseKnown (relaySettings "tcp://r.example:9".toList).wormhole =
    .ok servers := by
  have hv : (relaySettings "tcp://r.example:9".toList).validate =
      .ok (relaySettings "tcp://r.example:9".toList) := by
    decide
  have huse := servers_usable_iff parseKnown documented_parseKnown _ _ hv
  apply huse.2.1.mpr
  constructor
  · intro raw hraw
    cases hraw
  · intro raw hraw
    obtain rfl : "tcp://r.example:9".toList = raw := Option.some.inj (Eq.trans (by decide) hraw)
    exact ⟨_, rfl, ⟨9, rfl, by decide⟩, Or.inl rfl⟩

/-- A relay without a port is taken, and cannot be used. -/
theorem unusable_without_port :
    ¬ ∀ (parse : Str → Option Url) (_ : Documented parse) (s v : Settings), s.validate = .ok v →
    (∃ servers, Servers.fromSettings parse v.wormhole = .ok servers) ∧
      ∃ relays, Relays.fromSettings v.croc = .ok relays := by
  intro h
  have hv : (relaySettings "tcp://r.example".toList).validate =
      .ok (relaySettings "tcp://r.example".toList) := by
    decide
  obtain ⟨⟨servers, hs⟩, -⟩ := h parseKnown documented_parseKnown _ _ hv
  have he : Servers.fromSettings parseKnown (relaySettings "tcp://r.example".toList).wormhole =
      .error (badUrl "relay") := by
    decide
  cases he.symm.trans hs

end Sukkula.Config
