import Sukkula.Library.Assoc
import Sukkula.Library.Iter
import Sukkula.Library.Transition
import Sukkula.Offer.Validate

/-! # The peer table

The peers discovery found, by the fingerprint of their certificates. A newcomer
is let in while there is room, in the table and for its address; otherwise it
replaces the stalest entry of its own address, or one of an address that holds
more. A peer that moved keeps its entry, wherever it moved to.
-/

namespace Sukkula.Discovery

open Assoc Iter Text Config

def maxPeers : ℕ := 64

def maxPeersPerIp : ℕ := 4

/-- `PEER_TTL`, in nanoseconds. -/
def peerTtl : ℕ := 100 * 10 ^ 9

structure SocketAddr (Ip : Type) where
  ip : Ip
  port : UInt16
  deriving DecidableEq, Repr

inductive DeviceType | phone | tablet | computer | unknown
  deriving DecidableEq, Repr

/-- A peer that can be sent to. The address stands for its text. -/
structure Peer (Ip : Type) where
  id : Str
  protocol : Protocol
  name : Str
  model : Option Str
  deviceType : DeviceType
  address : Option (SocketAddr Ip)
  fingerprint : Option Str
  deriving DecidableEq

structure Target (Ip : Type) where
  addr : SocketAddr Ip
  fingerprint : Str
  name : Str

structure Entry (Ip : Type) where
  target : Target Ip
  peer : Peer Ip
  seen : ℕ

abbrev Peers (Ip : Type) := Table Str (Entry Ip)

structure Sighting (Ip : Type) where
  fingerprint : Str
  addr : SocketAddr Ip
  aliasName : Str
  model : Option Str
  deviceType : DeviceType

/-- What `upsert` did. -/
structure Upsert (Ip : Type) where
  listed : Bool
  found : Option (Peer Ip)
  lost : Option Str

def peerId (fingerprint : Str) : Str := "ls:".toList ++ fingerprint

/-- One entry of a bounded table, as `makeRoom` weighs it. -/
structure Slot (κ Ip : Type) where
  key : κ
  ip : Ip
  rank : ℕ
  seen : ℕ

inductive Room (κ : Type) | free | replace (key : κ) | full
  deriving DecidableEq, Repr

section Table

variable {κ Ip : Type} [DecidableEq Ip]

def Room.ofVictim : Option (Slot κ Ip) → Room κ
  | none => .full
  | some s => .replace s.key

/-- Room for a newcomer from `ip` of `rank`, in a table of at most `cap` entries and at most `perIp`
for one address. -/
def makeRoom (slots : List (Slot κ Ip)) (ip : Ip) (rank cap perIp : ℕ) : Room κ :=
  let own := slots.filter (·.ip = ip)
  let held := own.length
  if perIp ≤ held then
    .ofVictim (minBy (fun a b => compare a.seen b.seen) (own.filter (·.rank ≤ rank)))
  else if slots.length < cap then .free
  else
    let count ip := slots.countP (·.ip = ip)
    .ofVictim (minBy (fun a b => (compare a.rank b.rank).then
        ((compare (count b.ip) (count a.ip)).then (compare a.seen b.seen)))
      (slots.filter fun s => s.rank < rank ∨ (s.rank = rank ∧ held + 2 ≤ count s.ip)))

section Room

variable {slots : List (Slot κ Ip)} {ip : Ip} {rank cap perIp : ℕ}

omit [DecidableEq Ip] in
theorem Room.ofVictim_eq_replace {o : Option (Slot κ Ip)} {key : κ}
    (h : Room.ofVictim o = .replace key) : ∃ slot, o = some slot ∧ slot.key = key := by
  cases o with
  | none => cases h
  | some slot => exact ⟨slot, rfl, by simpa [Room.ofVictim] using h⟩

omit [DecidableEq Ip] in
theorem Room.ofVictim_ne_free (o : Option (Slot κ Ip)) : Room.ofVictim o ≠ .free := by
  cases o <;> nofun

/-- A newcomer replaces one that ranks no better; if that is at another address, its own is below
its share. -/
theorem slot_of_makeRoom {key : κ} (h : makeRoom slots ip rank cap perIp = .replace key) :
    ∃ slot ∈ slots, slot.key = key ∧ slot.rank ≤ rank ∧
      (slot.ip ≠ ip → slots.countP (·.ip = ip) < perIp) := by
  unfold makeRoom at h
  simp only [← List.countP_eq_length_filter] at h
  split_ifs at h with hshare
  · obtain ⟨slot, hslot, rfl⟩ := Room.ofVictim_eq_replace h
    have hmem := mem_of_minBy hslot
    simp only [List.mem_filter, decide_eq_true_eq] at hmem
    exact ⟨slot, hmem.1.1, rfl, hmem.2, fun hne => absurd hmem.1.2 hne⟩
  · obtain ⟨slot, hslot, rfl⟩ := Room.ofVictim_eq_replace h
    have hmem := mem_of_minBy hslot
    simp only [List.mem_filter, decide_eq_true_eq] at hmem
    refine ⟨slot, hmem.1, rfl, ?_, fun _ => Nat.not_le.mp hshare⟩
    rcases hmem.2 with hlt | ⟨heq, -⟩
    · exact hlt.le
    · exact heq.le

theorem room_of_makeRoom (h : makeRoom slots ip rank cap perIp = .free) :
    slots.countP (·.ip = ip) < perIp ∧ slots.length < cap := by
  unfold makeRoom at h
  simp only [← List.countP_eq_length_filter] at h
  split_ifs at h with hshare hsize
  · exact absurd h (Room.ofVictim_ne_free _)
  · exact ⟨Nat.not_le.mp hshare, hsize⟩
  · exact absurd h (Room.ofVictim_ne_free _)

end Room

namespace Peers

/-- The table as `makeRoom` weighs it, in the order in which it is gone through. -/
def slots (it : Iteration Str (Entry Ip)) (t : Peers Ip) : List (Slot Str Ip) :=
  (it.order t.entries).map fun (key, e) => ⟨key, e.target.addr.ip, 0, e.seen⟩

def entry (s : Sighting Ip) (now : ℕ) : Entry Ip :=
  let peer : Peer Ip :=
    { id := peerId s.fingerprint
      protocol := .localSend
      name := Offer.checkSender s.aliasName
      model := Offer.shown (s.model.map (display · Offer.maxModelChars))
      deviceType := s.deviceType
      address := some s.addr
      fingerprint := some s.fingerprint }
  ⟨⟨s.addr, s.fingerprint, peer.name⟩, peer, now⟩

def upsert (it : Iteration Str (Entry Ip)) (t : Peers Ip) (s : Sighting Ip) (now : ℕ) :
    Peers Ip × Upsert Ip :=
  let new := entry s now
  match t.lookup s.fingerprint with
  | some old =>
    -- A peer that moved keeps its entry.
    (t.set s.fingerprint new, ⟨true, if old.peer = new.peer then none else some new.peer, none⟩)
  | none =>
    match makeRoom (t.slots it) s.addr.ip 0 maxPeers maxPeersPerIp with
    | .free => (t.set s.fingerprint new, ⟨true, some new.peer, none⟩)
    | .replace key =>
      ((t.remove key).set s.fingerprint new, ⟨true, some new.peer, (t.lookup key).map (·.peer.id)⟩)
    | .full => (t, ⟨false, none, none⟩)

/-- Removes peers not seen for `PEER_TTL`, with their ids. -/
def expire (it : Iteration Str (Entry Ip)) (t : Peers Ip) (now : ℕ) : Peers Ip × List Str :=
  (t.retain fun e => now - e.seen < peerTtl,
    ((it.order t.entries).filter fun e => ¬ now - e.2.seen < peerTtl).map (·.2.peer.id))

/-- Forgets everyone, with their ids and where they were. -/
def clear (it : Iteration Str (Entry Ip)) (t : Peers Ip) : Peers Ip × List (Str × Target Ip) :=
  (.empty, (it.order t.entries).map fun e => (e.2.peer.id, e.2.target))

def held (t : Peers Ip) (ip : Ip) : ℕ := t.count (·.target.addr.ip = ip)

variable {it : Iteration Str (Entry Ip)} {t t' : Peers Ip} {s : Sighting Ip}
  {u : Upsert Ip} {ip : Ip} {now : ℕ}

omit [DecidableEq Ip] in
theorem length_slots (it : Iteration Str (Entry Ip)) (t : Peers Ip) :
    (t.slots it).length = t.size := by
  rw [slots, List.length_map, (it.perm _).length_eq, Table.size]

theorem countP_slots (it : Iteration Str (Entry Ip)) (t : Peers Ip) (ip : Ip) :
    (t.slots it).countP (·.ip = ip) = t.held ip := by
  rw [slots, List.countP_map, (it.perm _).countP_eq]
  rfl

omit [DecidableEq Ip] in
theorem mem_slots {slot : Slot Str Ip} (h : slot ∈ t.slots it) :
    ∃ e, t.lookup slot.key = some e ∧ e.target.addr.ip = slot.ip ∧ slot.rank = 0 := by
  obtain ⟨⟨key, e⟩, he, rfl⟩ := List.mem_map.mp h
  exact ⟨e, Table.lookup_eq_some_iff.mpr ((it.perm _).mem_iff.mp he), rfl, rfl⟩

/-- What `upsert` can do, and what it reports. -/
inductive Upserts (t : Peers Ip) (s : Sighting Ip) (new : Entry Ip) : Peers Ip → Upsert Ip → Prop
  | known {old : Entry Ip} {found : Option (Peer Ip)} (h : t.lookup s.fingerprint = some old)
      (hfound : ∀ p ∈ found, p = new.peer) :
      Upserts t s new (t.set s.fingerprint new) ⟨true, found, none⟩
  | free (h : t.lookup s.fingerprint = none) (hheld : t.held s.addr.ip < maxPeersPerIp)
      (hsize : t.size < maxPeers) :
      Upserts t s new (t.set s.fingerprint new) ⟨true, some new.peer, none⟩
  | replace {key : Str} {old : Entry Ip} (h : t.lookup s.fingerprint = none)
      (hkey : t.lookup key = some old)
      (hheld : old.target.addr.ip ≠ s.addr.ip → t.held s.addr.ip < maxPeersPerIp) :
      Upserts t s new ((t.remove key).set s.fingerprint new) ⟨true, some new.peer, some old.peer.id⟩
  | full : Upserts t s new t ⟨false, none, none⟩

/-- The victim is in the table; if it is at another address, the newcomer's is below its share. -/
theorem makeRoom_replace {key : Str}
    (h : makeRoom (t.slots it) ip 0 maxPeers maxPeersPerIp = .replace key) :
    ∃ old, t.lookup key = some old ∧ (old.target.addr.ip ≠ ip → t.held ip < maxPeersPerIp) := by
  obtain ⟨slot, hslot, rfl, -, hshare⟩ := slot_of_makeRoom h
  obtain ⟨old, hold, hip, -⟩ := mem_slots hslot
  refine ⟨old, hold, fun hne => ?_⟩
  rw [← countP_slots it]
  exact hshare (hip ▸ hne)

theorem makeRoom_free (h : makeRoom (t.slots it) ip 0 maxPeers maxPeersPerIp = .free) :
    t.held ip < maxPeersPerIp ∧ t.size < maxPeers := by
  have hroom := room_of_makeRoom h
  rwa [countP_slots, length_slots] at hroom

theorem upserts_upsert (it : Iteration Str (Entry Ip)) (t : Peers Ip) (s : Sighting Ip) (now : ℕ) :
    Upserts t s (entry s now) (t.upsert it s now).1 (t.upsert it s now).2 := by
  unfold upsert
  split
  · rename_i old h
    refine .known h ?_
    split_ifs <;> simp
  · rename_i h
    split
    · rename_i hroom
      obtain ⟨hheld, hsize⟩ := makeRoom_free hroom
      exact .free h hheld hsize
    · rename_i key hroom
      obtain ⟨old, hkey, hheld⟩ := makeRoom_replace hroom
      simp only [hkey, Option.map_some]
      exact .replace h hkey hheld
    · exact .full

inductive Op (Ip : Type)
  | upsert (it : Iteration Str (Entry Ip)) (s : Sighting Ip) (now : ℕ)
  | expire (it : Iteration Str (Entry Ip)) (now : ℕ)
  | clear (it : Iteration Str (Entry Ip))

def step (t : Peers Ip) : Op Ip → Option (Peers Ip)
  | .upsert it s now => some (t.upsert it s now).1
  | .expire it now => some (t.expire it now).1
  | .clear it => some (t.clear it).1

/-- A known peer is not seen at another address that holds its share already. -/
def Stays (t : Peers Ip) : Op Ip → Prop
  | .upsert _ s _ => ∀ old, t.lookup s.fingerprint = some old →
      old.target.addr.ip = s.addr.ip ∨ t.held s.addr.ip < maxPeersPerIp
  | _ => True

theorem size_upsert_le (ht : t.size ≤ maxPeers) (h : Upserts t s (entry s now) t' u) :
    t'.size ≤ maxPeers := by
  cases h with
  | known h => exact (Table.size_set_of_lookup (by simp [h])).trans ht
  | free _ _ hsize => exact Table.size_set_le.trans hsize
  | @replace key _ _ hkey =>
    have hsize := Table.size_of_lookup hkey
    have hset := Table.size_set_le (t := t.remove key) (k := s.fingerprint) (v := entry s now)
    omega
  | full => exact ht

/-- An entry that is made adds one to its address, and what is removed goes from its own. -/
theorem held_set (t : Peers Ip) (s : Sighting Ip) (now : ℕ) (ip : Ip) :
    held (t.set s.fingerprint (entry s now)) ip =
      held (t.remove s.fingerprint) ip + if s.addr.ip = ip then 1 else 0 := by
  rw [held, Table.count_set]
  simp only [decide_eq_true_eq]
  rfl

theorem held_of_lookup {key : Str} {old : Entry Ip} (h : t.lookup key = some old) (ip : Ip) :
    t.held ip = held (t.remove key) ip + if old.target.addr.ip = ip then 1 else 0 := by
  rw [held, Table.count_of_lookup h]
  simp only [decide_eq_true_eq]
  rfl

theorem held_of_lookup_none {key : Str} (h : t.lookup key = none) (ip : Ip) :
    held (t.remove key) ip = t.held ip := Table.count_of_lookup_none h _

theorem held_upsert_le (ht : ∀ ip, t.held ip ≤ maxPeersPerIp) (h : Upserts t s (entry s now) t' u)
    (hstays : ∀ old, t.lookup s.fingerprint = some old →
      old.target.addr.ip = s.addr.ip ∨ t.held s.addr.ip < maxPeersPerIp) (ip : Ip) :
    t'.held ip ≤ maxPeersPerIp := by
  have hip := ht ip
  cases h with
  | @known old _ h =>
    have hold := held_of_lookup h ip
    rw [held_set]
    by_cases hne : s.addr.ip = ip
    · subst hne
      rcases hstays old h with hsame | hroom
      · rw [if_pos hsame] at hold
        rw [if_pos rfl]
        omega
      · rw [if_pos rfl]
        omega
    · rw [if_neg hne]
      omega
  | free h hheld =>
    rw [held_set, held_of_lookup_none h]
    by_cases hne : s.addr.ip = ip
    · subst hne
      rw [if_pos rfl]
      exact hheld
    · rw [if_neg hne]
      exact hip
  | @replace key old h hkey hheld =>
    have hnone : (t.remove key).lookup s.fingerprint = none := by
      rw [Table.lookup_remove]
      split_ifs
      · rfl
      · exact h
    have hold := held_of_lookup hkey ip
    rw [held_set, held_of_lookup_none hnone]
    by_cases hne : s.addr.ip = ip
    · subst hne
      rw [if_pos rfl]
      by_cases hsame : old.target.addr.ip = s.addr.ip
      · rw [if_pos hsame] at hold
        omega
      · have := hheld hsame
        omega
    · rw [if_neg hne]
      omega
  | full => exact hip

theorem held_retain_le (p : Entry Ip → Bool) (ip : Ip) : held (t.retain p) ip ≤ t.held ip :=
  List.filter_sublist.countP_le

theorem size_step_le {op : Op Ip} (ht : t.size ≤ maxPeers) (h : step t op = some t') :
    t'.size ≤ maxPeers := by
  cases op with
  | upsert it s now =>
    obtain rfl := Option.some.inj h
    exact size_upsert_le ht (upserts_upsert it t s now)
  | expire it now =>
    obtain rfl := Option.some.inj h
    exact Table.size_retain_le.trans ht
  | clear it =>
    obtain rfl := Option.some.inj h
    exact Nat.zero_le _

theorem held_step_le {op : Op Ip} (ht : ∀ ip, t.held ip ≤ maxPeersPerIp) (hstays : Stays t op)
    (h : step t op = some t') (ip : Ip) : t'.held ip ≤ maxPeersPerIp := by
  cases op with
  | upsert it s now =>
    obtain rfl := Option.some.inj h
    exact held_upsert_le ht (upserts_upsert it t s now) hstays ip
  | expire it now =>
    obtain rfl := Option.some.inj h
    exact (held_retain_le _ ip).trans (ht ip)
  | clear it =>
    obtain rfl := Option.some.inj h
    exact Nat.zero_le _

open Transition in
/-- The table stays small in every run, and the addresses keep to their share in every run in which
no peer moves to an address that has no room for it. -/
theorem table_bounded (ops : List (Op Ip)) (t : Peers Ip) (h : exec step .empty ops = some t) :
    t.size ≤ 64 ∧ (Along step Stays .empty ops → ∀ ip, t.held ip ≤ 4) := by
  constructor
  · exact exec_invariant (fun _ _ _ => size_step_le) (Nat.zero_le _) h
  · intro hstays
    exact exec_invariant_along (I := fun t => ∀ ip, t.held ip ≤ maxPeersPerIp)
      (fun _ _ _ ht hs h => held_step_le ht hs h) (fun _ => Nat.zero_le _) hstays h

/-- A sighting of the device with this certificate, at this address. -/
def sightingAt (fingerprint : Str) (ip : Ip) : Op Ip :=
  .upsert ⟨id, fun _ => .refl _⟩ ⟨fingerprint, ⟨ip, 53317⟩, [], none, .unknown⟩ 0

/-- Five devices at one address, and one at another that moves to a third. -/
def crowd : List (Op ℕ) :=
  [sightingAt ['A'] 1, sightingAt ['B'] 1, sightingAt ['C'] 1, sightingAt ['D'] 1,
    sightingAt ['E'] 1, sightingAt ['F'] 2, sightingAt ['F'] 3]

open Transition in
theorem table_bounded_crowd : ∃ t, exec step .empty crowd = some t ∧ t.size = 5 ∧ t.held 1 = 4 ∧
    t.size ≤ 64 ∧ ∀ ip, t.held ip ≤ 4 := by
  refine ⟨_, rfl, by decide, by decide, ?_⟩
  obtain ⟨hsize, hheld⟩ := table_bounded crowd _ rfl
  have hstays : ∀ (t : Peers ℕ) (fp : Str) (ip : ℕ),
      (t.lookup fp).all (fun old => old.target.addr.ip = ip ∨ t.held ip < 4) →
      Stays t (sightingAt fp ip) := by
    intro t fp ip hall old hold
    rw [Option.all_eq_true] at hall
    exact of_decide_eq_true (hall old hold)
  refine ⟨hsize, hheld ?_⟩
  iterate 6 refine Along.cons (hstays _ _ _ (by decide)) rfl ?_
  exact Along.cons (hstays _ _ _ (by decide)) rfl trivial

open Transition in
/-- Four devices at one address, and a fifth that moves there. -/
theorem moved_in : ¬ ∀ (ops : List (Op ℕ)) (t : Peers ℕ), exec step .empty ops = some t →
    t.size ≤ 64 ∧ ∀ ip, t.held ip ≤ 4 := by
  intro h
  have hfive := (h [sightingAt ['A'] 1, sightingAt ['B'] 1, sightingAt ['C'] 1, sightingAt ['D'] 1,
    sightingAt ['E'] 2, sightingAt ['E'] 1] _ rfl).2 1
  exact absurd hfive (by decide +kernel)

end Peers

end Table

end Sukkula.Discovery
