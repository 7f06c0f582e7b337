import Sukkula.Library.Hex
import Sukkula.LocalSend.Fair

/-! # The peers Quick Share found

What mDNS browsing finds goes into a table by endpoint id. A source lists a few
peers at most, and the full table is shared between the sources as LocalSend's is
between addresses. Only the source that listed a peer moves it or takes it off.
-/

namespace Sukkula.QuickShare

open Assoc Iter Share
open Sukkula.Discovery (DeviceType SocketAddr maxPeers)

def maxPeersPerSource : ℕ := 4

/-- A peer as it is shown. The address stands for its text. -/
structure Peer (Ip : Type) where
  id : Str
  protocol : Protocol
  name : Str
  model : Option Str
  deviceType : DeviceType
  address : Option Ip
  fingerprint : Option Str
  deriving DecidableEq

structure PeerEntry (Ip : Type) where
  peer : Peer Ip
  addr : SocketAddr Ip
  deriving DecidableEq

/-- A listed peer, where it was announced from, and when it was first listed. -/
structure Listed (Ip : Type) where
  entry : PeerEntry Ip
  source : Ip
  seq : UInt64

structure Peers (Ip : Type) where
  byId : Table Str (Listed Ip) := .empty
  seq : UInt64 := 0

inductive Event (Ip : Type)
  | peerFound (peer : Peer Ip)
  | peerLost (id : Str)

abbrev EndpointId := Vector UInt8 4

inductive Announced | unknown | phone | tablet | laptop
  deriving DecidableEq, Repr

def Announced.deviceType : Announced → DeviceType
  | phone => .phone
  | tablet => .tablet
  | laptop => .computer
  | unknown => .unknown

/-- What rqs_lib reports; the texts of an address and of a port as they are read. -/
structure EndpointInfo (Ip : Type) where
  endpointId : Option EndpointId
  present : Option Bool
  ip : Option Ip
  port : Option UInt16
  source : Option Ip
  name : Option Str
  rtype : Option Announced

/-- The reach policy, the budget of announcements, an address as it is compared, and ourselves. -/
structure Context (Ip : Type) where
  permits : Ip → Bool
  allow : Ip → Bool
  canonical : Ip → Ip
  ownEndpoint : Option EndpointId

/-- `qs:` and the endpoint id, in hex if it is not of letters and digits. -/
def peerId (endpointId : EndpointId) : Str :=
  let chars := endpointId.toList.map fun b => Char.ofNat b.toNat
  "qs:".toList ++ if chars.all Char.isAlphanum then chars else hexEncode endpointId.toList

section Table

variable {Ip : Type} [DecidableEq Ip]

/-- Which listed peer a new one from `source` is to replace. -/
def makeRoom (it : Iteration Str (Listed Ip)) (listed : Table Str (Listed Ip)) (source : Ip) :
    Except Unit (Option Str) :=
  let rows := it.order listed.entries
  let own := rows.countP (·.2.source = source)
  let oldest (sources : List Ip) : Except Unit (Option Str) :=
    match minBy (fun a b => compare a.2.seq.toNat b.2.seq.toNat)
        (rows.filter fun l => l.2.source ∈ sources) with
    | some (id, _) => .ok (some id)
    | none => .error ()
  if maxPeersPerSource ≤ own then oldest [source]
  else if maxPeers ≤ listed.size then
    let counts := (rows.map (·.2.source)).dedup.map fun s => (s, rows.countP (·.2.source = s))
    let most := (counts.map Prod.snd).max?.getD 0
    if most < own + 2 then .error ()
    else oldest ((counts.filter (·.2 = most)).map Prod.fst)
  else .ok none

/-- The peer that is listed for an announcement. -/
def listed (endpointId : EndpointId) (rawName : Str) (deviceType : Announced) : Peer Ip where
  id := peerId endpointId
  protocol := .quickShare
  name := Offer.checkSender rawName
  model := none
  deviceType := deviceType.deviceType
  address := none
  fingerprint := none

namespace Peers

/-- Adds or updates a peer announced from `source`: its id, if it is listed, and what is
reported. -/
def insert (ctx : Context Ip) (it : Iteration Str (Listed Ip)) (t : Peers Ip)
    (endpointId : EndpointId) (addr : SocketAddr Ip) (source : Ip) (rawName : Str)
    (deviceType : Announced) : Peers Ip × Option Str × List (Event Ip) :=
  if !ctx.permits addr.ip || !ctx.permits source then (t, none, [])
  else
    let id := peerId endpointId
    let peer : Peer Ip := listed endpointId rawName deviceType
    let entry : PeerEntry Ip := ⟨{ peer with address := some addr.ip }, addr⟩
    match t.byId.lookup id with
    | some held =>
      -- an id is its source's
      if held.source ≠ source then (t, none, [])
      else
        ({ t with byId := t.byId.set id ⟨entry, source, held.seq⟩ }, some id,
          if held.entry = entry then [] else [.peerFound entry.peer])
    | none =>
      match makeRoom it t.byId source with
      | .error _ => (t, none, [])
      | .ok none =>
        (⟨t.byId.set id ⟨entry, source, t.seq + 1⟩, t.seq + 1⟩, some id, [.peerFound entry.peer])
      | .ok (some old) =>
        (⟨(t.byId.remove old).set id ⟨entry, source, t.seq + 1⟩, t.seq + 1⟩, some id,
          [.peerLost old, .peerFound entry.peer])

/-- Only the source that listed a peer takes it off the list. -/
def lost (t : Peers Ip) (id : Str) (source : Option Ip) : Peers Ip × List (Event Ip) :=
  match t.byId.lookup id with
  | some held =>
    if some held.source = source then ({ t with byId := t.byId.remove id }, [.peerLost id])
    else (t, [])
  | none => (t, [])

def foundOrLost (ctx : Context Ip) (it : Iteration Str (Listed Ip)) (t : Peers Ip)
    (info : EndpointInfo Ip) : Peers Ip × List (Event Ip) :=
  match info.endpointId with
  | none => (t, [])
  | some endpointId =>
    if ctx.ownEndpoint = some endpointId then (t, [])
    else
      let source := info.source.map ctx.canonical
      if info.present ≠ some true then t.lost (peerId endpointId) source
      else match info.ip, info.port, source with
      | some ip, some port, some source =>
        if port = 0 || !ctx.permits source || !ctx.allow source then (t, [])
        else
          let (t', _, events) := t.insert ctx it endpointId ⟨ip, port⟩ source (info.name.getD [])
            (info.rtype.getD .unknown)
          (t', events)
      | _, _, _ => (t, [])

/-- Browsing starts again: everyone is forgotten. -/
def start (it : Iteration Str (Listed Ip)) (t : Peers Ip) : Peers Ip × List (Event Ip) :=
  ({ t with byId := .empty }, (it.order t.byId.entries).map fun e => .peerLost e.1)

inductive Op (Ip : Type)
  | start (it : Iteration Str (Listed Ip))
  | foundOrLost (ctx : Context Ip) (it : Iteration Str (Listed Ip)) (info : EndpointInfo Ip)

def step (t : Peers Ip) : Op Ip → Option (Peers Ip)
  | .start it => some (t.start it).1
  | .foundOrLost ctx it info => some (t.foundOrLost ctx it info).1

end Peers

end Table

section Rule

variable {Ip : Type} [DecidableEq Ip] {it : Iteration Str (Listed Ip)} {t : Table Str (Listed Ip)}
  {source : Ip} {key : Str}

def view : View (Str × Listed Ip) Ip := ⟨fun e => e.2.source, fun e => e.2.seq.toNat⟩

def ofVerdict : Verdict (Str × Listed Ip) → Except Unit (Option Str)
  | .free => .ok none
  | .replace e => .ok (some e.1)
  | .full => .error ()

theorem countP_order (it : Iteration Str (Listed Ip)) (t : Table Str (Listed Ip)) (x : Ip) :
    (it.order t.entries).countP (·.2.source = x) = held view t.entries x :=
  (it.perm t.entries).countP_eq _

/-- The largest of the counts is the most that a listed source holds. -/
theorem most_spec (it : Iteration Str (Listed Ip)) (t : Table Str (Listed Ip))
    {counts : List (Ip × ℕ)} (hcounts : counts = ((it.order t.entries).map (·.2.source)).dedup.map
      fun s => (s, held view t.entries s)) {most : ℕ} (hmost :
      most = (counts.map Prod.snd).max?.getD 0) :
    (∀ e ∈ t.entries, held view t.entries e.2.source ≤ most ∧
      ∃ e' ∈ t.entries, held view t.entries e'.2.source = most) ∧
    ∀ s, s ∈ (counts.filter (·.2 = most)).map Prod.fst ↔
      (∃ e ∈ t.entries, e.2.source = s) ∧ held view t.entries s = most := by
  have hmem : ∀ s n, (s, n) ∈ counts ↔ (∃ e ∈ t.entries, e.2.source = s) ∧
      held view t.entries s = n := by
    intro s n
    rw [hcounts]
    simp only [List.mem_map, List.mem_dedup, Prod.mk.injEq, (it.perm _).mem_iff]
    constructor
    · rintro ⟨_, ⟨e, he, rfl⟩, rfl, rfl⟩
      exact ⟨⟨e, he, rfl⟩, rfl⟩
    · rintro ⟨⟨e, he, rfl⟩, rfl⟩
      exact ⟨_, ⟨e, he, rfl⟩, rfl, rfl⟩
  constructor
  · intro e he
    have hin : held view t.entries e.2.source ∈ counts.map Prod.snd :=
      List.mem_map.mpr ⟨_, (hmem _ _).mpr ⟨⟨e, he, rfl⟩, rfl⟩, rfl⟩
    cases hmax : (counts.map Prod.snd).max? with
    | none =>
      rw [List.max?_eq_none_iff.mp hmax] at hin
      cases hin
    | some n =>
      rw [hmost, hmax]
      obtain ⟨hn, hle⟩ := List.max?_eq_some_iff.mp hmax
      obtain ⟨⟨s, n⟩, hsn, rfl⟩ := List.mem_map.mp hn
      obtain ⟨⟨e', he', rfl⟩, heq⟩ := (hmem _ _).mp hsn
      exact ⟨hle _ hin, e', he', heq⟩
  · intro s
    rw [List.mem_map]
    constructor
    · rintro ⟨⟨s', n⟩, hsn, rfl⟩
      rw [List.mem_filter, decide_eq_true_eq] at hsn
      obtain ⟨hsource, hn⟩ := (hmem _ _).mp hsn.1
      exact ⟨hsource, hn.trans hsn.2⟩
    · rintro ⟨hsource, hn⟩
      refine ⟨(s, most), ?_, rfl⟩
      rw [List.mem_filter, decide_eq_true_eq]
      exact ⟨(hmem _ _).mpr ⟨hsource, hn⟩, rfl⟩

theorem decides_makeRoom (it : Iteration Str (Listed Ip)) (t : Table Str (Listed Ip))
    (source : Ip) : ∃ d, Decides view maxPeers maxPeersPerSource t.entries source d ∧
      makeRoom it t source = ofVerdict d := by
  have hrow : ∀ e, e ∈ it.order t.entries ↔ e ∈ t.entries := fun e => (it.perm _).mem_iff
  unfold makeRoom
  simp only [countP_order]
  split_ifs with hshare hcap hfew
  · have hrefuse : ¬ Free view maxPeers maxPeersPerSource t.entries source :=
      fun h => absurd h.1 (Nat.not_lt.mpr hshare)
    split
    · rename_i id l hmin
      obtain ⟨hmem, hleast⟩ := minBy_key hmin
      simp only [List.mem_filter, List.mem_singleton, decide_eq_true_eq, hrow] at hmem hleast
      exact ⟨.replace (id, l), .replace (.own hmem.1 hshare hmem.2 fun b hb hb' =>
        hleast b ⟨hb, hb'⟩), rfl⟩
    · rename_i hmin
      refine ⟨.full, .full hrefuse fun a ha => ?_, rfl⟩
      cases ha with
      | own ha _ hsource =>
        have hmem : a ∈ (it.order t.entries).filter fun l => l.2.source ∈ [source] := by
          simp only [List.mem_filter, List.mem_singleton, decide_eq_true_eq, hrow]
          exact ⟨ha, hsource⟩
        rw [minBy_eq_none hmin] at hmem
        cases hmem
      | other _ hlt => exact absurd hshare (Nat.not_le.mpr hlt)
  · -- the sources that list the most list too few
    have hmost := (most_spec it t rfl rfl).1
    refine ⟨.full, .full (fun h => absurd h.2 (Nat.not_lt.mpr hcap)) fun a ha => ?_, rfl⟩
    cases ha with
    | own _ hle => exact hshare hle
    | other ha _ _ hmore =>
      have hle := (hmost a ha).1
      have hmore' : held view t.entries source + 2 ≤ held view t.entries a.2.source := hmore
      omega
  · obtain ⟨hmost, hsources⟩ := most_spec it t rfl rfl
    generalize (((((it.order t.entries).map (·.2.source)).dedup.map
      fun s => (s, held view t.entries s)).map Prod.snd).max?.getD 0) = most at *
    generalize ((((it.order t.entries).map (·.2.source)).dedup.map
      fun s => (s, held view t.entries s)).filter (·.2 = most)).map Prod.fst = sources at *
    split
    · rename_i id l hmin
      obtain ⟨hmem, hleast⟩ := minBy_key hmin
      simp only [List.mem_filter, decide_eq_true_eq, hrow, hsources] at hmem hleast
      obtain ⟨hin, -, hheld⟩ := hmem
      refine ⟨.replace (id, l), .replace (.other hin (Nat.not_le.mp hshare) hcap ?_ ?_ ?_), rfl⟩
      · change _ ≤ held view t.entries l.source
        omega
      · intro b hb
        exact (hmost b hb).1.trans_eq hheld.symm
      · intro b hb heq
        exact hleast b ⟨hb, ⟨b, hb, rfl⟩, heq.trans hheld⟩
    · rename_i hmin
      refine ⟨.full, .full (fun h => absurd h.2 (Nat.not_lt.mpr hcap)) fun a ha => ?_, rfl⟩
      cases ha with
      | own _ hle => exact hshare hle
      | other ha _ _ hmore hall =>
        obtain ⟨hle, e, he, heq⟩ := hmost a ha
        have hheld : held view t.entries a.2.source = most := Nat.le_antisymm hle (heq ▸ hall e he)
        have hmem : a ∈ (it.order t.entries).filter fun l => l.2.source ∈ sources := by
          simp only [List.mem_filter, decide_eq_true_eq, hrow, hsources]
          exact ⟨ha, ⟨a, ha, rfl⟩, hheld⟩
        rw [minBy_eq_none hmin] at hmem
        cases hmem
  · exact ⟨.free, .free ⟨Nat.not_le.mp hshare, Nat.not_le.mp hcap⟩, rfl⟩

end Rule

namespace Peers

variable {Ip : Type} [DecidableEq Ip] {it : Iteration Str (Listed Ip)} {t t' : Peers Ip}
  {ctx : Context Ip} {endpointId : EndpointId} {addr : SocketAddr Ip} {source : Ip} {rawName : Str}
  {deviceType : Announced} {key : Str} {old : Listed Ip}

/-- What `insert` can do to the table. -/
inductive Inserts (t : Table Str (Listed Ip)) (id : Str) (source : Ip) :
    Table Str (Listed Ip) → Prop
  | refused : Inserts t id source t
  | known {held : Listed Ip} {entry : PeerEntry Ip} (h : t.lookup id = some held)
      (hsource : held.source = source) : Inserts t id source (t.set id ⟨entry, source, held.seq⟩)
  | free {entry : PeerEntry Ip} {seq : UInt64} (h : t.lookup id = none)
      (hroom : Free view maxPeers maxPeersPerSource t.entries source) :
      Inserts t id source (t.set id ⟨entry, source, seq⟩)
  | replace {entry : PeerEntry Ip} {seq : UInt64} {old : Str × Listed Ip} (h : t.lookup id = none)
      (hold : Victim view maxPeers maxPeersPerSource t.entries source old) :
      Inserts t id source ((t.remove old.1).set id ⟨entry, source, seq⟩)

theorem inserts_insert (ctx : Context Ip) (it : Iteration Str (Listed Ip)) (t : Peers Ip)
    (endpointId : EndpointId) (addr : SocketAddr Ip) (source : Ip) (rawName : Str)
    (deviceType : Announced) :
    Inserts t.byId (peerId endpointId) source
      (t.insert ctx it endpointId addr source rawName deviceType).1.byId := by
  obtain ⟨d, hd, hroom⟩ := decides_makeRoom it t.byId source
  unfold insert
  dsimp only
  split_ifs with hreach
  · exact .refused
  · split
    · rename_i held hheld
      by_cases hsource : held.source = source
      · rw [if_neg (not_not.mpr hsource)]
        exact .known hheld hsource
      · rw [if_pos hsource]
        exact .refused
    · rename_i hnone
      rw [hroom]
      cases hd with
      | free h => exact .free hnone h
      | replace h => exact .replace hnone h
      | full _ _ => exact .refused

theorem Inserts.size_le {t t' : Table Str (Listed Ip)} {id : Str} (h : Inserts t id source t')
    (ht : t.size ≤ maxPeers) : t'.size ≤ maxPeers := by
  cases h with
  | refused => exact ht
  | known h => exact (Table.size_set_of_lookup (by simp [h])).trans ht
  | free _ hroom => exact Table.size_set_le.trans hroom.2
  | @replace entry seq old _ hold =>
    have hsize := Table.size_of_lookup (Table.lookup_eq_some_iff.mpr hold.mem)
    have hset := Table.size_set_le (t := t.remove old.1) (k := id) (v := ⟨entry, source, seq⟩)
    omega

theorem Inserts.lookup {t t' : Table Str (Listed Ip)} {id : Str} (h : Inserts t id source t')
    (hne : key ≠ id) (hold : t.lookup key = some old) :
    t'.lookup key = some old ∨ t.lookup id = none ∧
      Victim view maxPeers maxPeersPerSource t.entries source (key, old) ∧
      ∃ val, view.source (id, val) = source ∧ t' = (t.remove key).set id val := by
  cases h with
  | refused => exact Or.inl hold
  | known h => exact Or.inl (by rw [Table.lookup_set, if_neg hne, hold])
  | free h _ => exact Or.inl (by rw [Table.lookup_set, if_neg hne, hold])
  | @replace entry seq victim h hv =>
    by_cases hkey : key = victim.1
    · obtain ⟨k, v⟩ := victim
      obtain rfl : key = k := hkey
      obtain rfl : v = old :=
        Option.some.inj ((Table.lookup_eq_some_iff.mpr hv.mem).symm.trans hold)
      exact Or.inr ⟨h, hv, _, rfl, rfl⟩
    · left
      rw [Table.lookup_set, if_neg hne, Table.lookup_remove, if_neg hkey, hold]

theorem size_lost_le (t : Peers Ip) (id : Str) (source : Option Ip) :
    (t.lost id source).1.byId.size ≤ t.byId.size := by
  unfold lost
  split
  · split_ifs
    · exact Table.size_remove_le
    · exact Nat.le_refl _
  · exact Nat.le_refl _

theorem size_foundOrLost_le (ht : t.byId.size ≤ maxPeers) (info : EndpointInfo Ip) :
    (t.foundOrLost ctx it info).1.byId.size ≤ maxPeers := by
  unfold foundOrLost
  split
  · exact ht
  · split_ifs
    · exact ht
    · exact (size_lost_le t _ _).trans ht
    · dsimp only
      split
      · split_ifs
        · exact ht
        · exact (inserts_insert ctx it t _ _ _ _ _).size_le ht
      · exact ht

theorem size_step_le {op : Op Ip} (ht : t.byId.size ≤ maxPeers) (h : step t op = some t') :
    t'.byId.size ≤ maxPeers := by
  cases op with
  | start it =>
    obtain rfl := Option.some.inj h
    exact Nat.zero_le _
  | foundOrLost ctx it info =>
    obtain rfl := Option.some.inj h
    exact size_foundOrLost_le ht info

/-- A newcomer that removes a peer of another source does so by the rule. -/
theorem fair_insert (ht : t.byId.size ≤ maxPeers) (hnew : t.byId.lookup (peerId endpointId) = none)
    (hold : t.byId.lookup key = some old) (hsource : old.source ≠ source)
    (hgone : (t.insert ctx it endpointId addr source rawName deviceType).1.byId.lookup key = none) :
    Fair view maxPeers t.byId.entries
      (t.insert ctx it endpointId addr source rawName deviceType).1.byId.entries source
      (key, old) := by
  have hne : key ≠ peerId endpointId := by
    rintro rfl
    rw [hnew] at hold
    cases hold
  rcases (inserts_insert ctx it t endpointId addr source rawName deviceType).lookup hne hold with
    hstays | ⟨-, hv, val, hval, hafter⟩
  · rw [hstays] at hgone
    cases hgone
  · rw [hafter]
    exact hv.fair_set val hsource ht hnew hval

theorem lone_insert (ht : t.byId.size ≤ maxPeers) (hne : key ≠ peerId endpointId)
    (hold : t.byId.lookup key = some old) (hsource : old.source ≠ source)
    (hone : held view t.byId.entries old.source = 1) :
    (t.insert ctx it endpointId addr source rawName deviceType).1.byId.lookup key = some old := by
  rcases (inserts_insert ctx it t endpointId addr source rawName deviceType).lookup hne hold with
    hstays | ⟨hnew, hv, val, hval, -⟩
  · exact hstays
  · have hmore : _ + 2 ≤ held view t.byId.entries old.source :=
      (hv.fair_set val hsource ht hnew hval).more
    omega

end Peers

section Agree

open Sukkula.Discovery (Slot)
open Transition

/-- LocalSend's rule and this one decide alike on corresponding tables. In every run of either
table, a newcomer that removes an entry of another address does so by the rule of a fair share, and
the only entry of an address stays. -/
theorem tables_agree {κ Ip : Type} [DecidableEq Ip] :
    (∀ (slots : List (Slot κ Ip)) (rank : ℕ) (it : Iteration Str (Listed Ip))
      (t : Table Str (Listed Ip)) (rows : List (Slot κ Ip × (Str × Listed Ip)))
      (x : Ip), (∀ s ∈ slots, s.rank = rank) → Corresponds Slot.view view slots t.entries rows →
      Distinct view t.entries → let here := Discovery.makeRoom slots x rank 64 4
      let there := makeRoom it t x
      (here = .free ∧ there = .ok none) ∨
        (∃ r ∈ rows, here = .replace r.1.key ∧ there = .ok (some r.2.1)) ∨
        (here = .full ∧ there = .error ())) ∧
    (∀ (ops : List (Discovery.Peers.Op Ip)) (t : Discovery.Peers Ip),
      exec Discovery.Peers.step .empty ops = some t →
      ∀ it s now key old, t.lookup key = some old → old.target.addr.ip ≠ s.addr.ip →
        let t' := (t.upsert it s now).1
        (t.lookup s.fingerprint = none → t'.lookup key = none →
          Fair Discovery.Peers.view 64 t.entries t'.entries s.addr.ip (key, old)) ∧
        (key ≠ s.fingerprint → t.held old.target.addr.ip = 1 → t'.lookup key = some old)) ∧
    ∀ (ops : List (Peers.Op Ip)) (t : Peers Ip), exec Peers.step {} ops = some t →
      ∀ ctx it endpointId addr source rawName deviceType key old, t.byId.lookup key = some old →
        old.source ≠ source →
        let t' := (t.insert ctx it endpointId addr source rawName deviceType).1
        (t.byId.lookup (peerId endpointId) = none → t'.byId.lookup key = none →
          Fair view 64 t.byId.entries t'.byId.entries source (key, old)) ∧
        (key ≠ peerId endpointId → held view t.byId.entries old.source = 1 →
          t'.byId.lookup key = some old) := by
  refine ⟨?_, ?_, ?_⟩
  · intro slots rank it t rows x hrank hrows hage
    obtain ⟨d, hd, hhere⟩ := Discovery.decides_makeRoom hrank x 64 4
    obtain ⟨e, he, hthere⟩ := decides_makeRoom it t x
    dsimp only
    rw [hhere, hthere]
    rcases hrows.agree hage hd he with ⟨rfl, rfl⟩ | ⟨r, hr, rfl, rfl⟩ | ⟨rfl, rfl⟩
    · exact Or.inl ⟨rfl, rfl⟩
    · exact Or.inr (Or.inl ⟨r, hr, rfl, rfl⟩)
    · exact Or.inr (Or.inr ⟨rfl, rfl⟩)
  · intro ops t hrun it s now key old hold hip
    have ht : t.size ≤ maxPeers :=
      exec_invariant (fun _ _ _ => Discovery.Peers.size_step_le) (Nat.zero_le _) hrun
    refine ⟨fun hnew hgone => ?_, fun hne hone => ?_⟩
    · exact Discovery.Peers.fair_upsert ht hnew hold hip hgone
    · exact Discovery.Peers.lone_upsert ht hne hold hip hone
  · intro ops t hrun ctx it endpointId addr source rawName deviceType key old hold hsource
    have ht : t.byId.size ≤ maxPeers :=
      exec_invariant (I := fun t => t.byId.size ≤ maxPeers) (fun _ _ _ => Peers.size_step_le)
        (Nat.zero_le _) hrun
    refine ⟨fun hnew hgone => ?_, fun hne hone => ?_⟩
    · exact Peers.fair_insert ht hnew hold hsource hgone
    · exact Peers.lone_insert ht hne hold hsource hone

/-- A peer of source 1 that was listed so many turns ago. -/
def listedAt (seq : UInt64) : Listed ℕ :=
  ⟨⟨listed #v[97, 98, 99, 100] [] .phone, ⟨7, 443⟩⟩, 1, seq⟩

def fourListed : Table Str (Listed ℕ) :=
  ⟨[(['b'], listedAt 3), (['a'], listedAt 2), (['c'], listedAt 5),
    (['d'], listedAt 4)], by decide +kernel⟩

def fourRows : List (Slot ℕ ℕ × (Str × Listed ℕ)) :=
  (fourListed.entries.zip [10, 11, 12, 13]).map fun (e, key) => (⟨key, 1, 0, e.2.seq.toNat⟩, e)

/-- A fifth takes the place of the oldest. -/
theorem tables_agree_fifth :
    ∃ r ∈ fourRows, Discovery.makeRoom (fourRows.map Prod.fst) 1 0 64 4 = .replace r.1.key ∧
      makeRoom ⟨id, fun _ => .refl _⟩ fourListed 1 = .ok (some r.2.1) := by
  have hrows : Corresponds Slot.view view (fourRows.map Prod.fst) fourListed.entries fourRows := by
    refine ⟨.refl _, List.Perm.of_eq rfl, ?_, ?_⟩
    · decide
    · decide
  have hagree :=
    tables_agree.1 (fourRows.map Prod.fst) 0 ⟨id, fun _ => .refl _⟩ fourListed fourRows 1
    (by decide) hrows (by unfold Distinct; decide)
  have hfree : Discovery.makeRoom (fourRows.map Prod.fst) 1 0 64 4 ≠ .free := by decide
  have hfull : Discovery.makeRoom (fourRows.map Prod.fst) 1 0 64 4 ≠ .full := by decide
  rcases hagree with ⟨h, -⟩ | h | ⟨h, -⟩
  · exact absurd h hfree
  · exact h
  · exact absurd h hfull

end Agree

end Sukkula.QuickShare
