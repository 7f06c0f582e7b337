import Sukkula.Library.Share
import Sukkula.LocalSend.Peers

/-! # The peer table is shared fairly

`makeRoom` follows the rule of a table that is shared fairly between addresses, and
so does every newcomer to the peer table, in every run.
-/

namespace Sukkula.Discovery

open Assoc Iter Share

section Rule

variable {κ Ip : Type} [DecidableEq Ip] {slots : List (Slot κ Ip)} {rank : ℕ}

def Slot.view : View (Slot κ Ip) Ip := ⟨Slot.ip, Slot.seen⟩

def Room.ofVerdict : Verdict (Slot κ Ip) → Room κ
  | .free => .free
  | .replace s => .replace s.key
  | .full => .full

/-- The order of the last choice: by rank, by what the address holds, by age. -/
def Weaker (count : Ip → ℕ) (a b : Slot κ Ip) : Prop :=
  a.rank < b.rank ∨ a.rank = b.rank ∧
    (count b.ip < count a.ip ∨ count a.ip = count b.ip ∧ a.seen ≤ b.seen)

def weakest (count : Ip → ℕ) (a b : Slot κ Ip) : Ordering :=
  (compare a.rank b.rank).then ((compare (count b.ip) (count a.ip)).then (compare a.seen b.seen))

omit [DecidableEq Ip] in
theorem weakest_eq_gt {count : Ip → ℕ} {a b : Slot κ Ip} :
    weakest count a b = .gt ↔ ¬ Weaker count a b := by
  unfold weakest Weaker
  simp only [Ordering.then_eq_gt, Nat.compare_eq_gt, Nat.compare_eq_eq]
  omega

omit [DecidableEq Ip] in
theorem minBy_weakest {count : Ip → ℕ} {l : List (Slot κ Ip)} {s : Slot κ Ip}
    (h : minBy (weakest count) l = some s) : s ∈ l ∧ ∀ b ∈ l, Weaker count s b := by
  refine minBy_spec ?_ ?_ ?_ ?_ h
  · intro a b c hab hbc
    unfold Weaker at *
    omega
  · intro a
    unfold Weaker
    omega
  · intro a b hab
    rw [weakest_eq_gt] at hab
    unfold Weaker at *
    omega
  · intro a b hab
    rwa [Ne, weakest_eq_gt, not_not] at hab

theorem decides_makeRoom (hrank : ∀ s ∈ slots, s.rank = rank) (ip : Ip) (cap perIp : ℕ) :
    ∃ d, Decides Slot.view cap perIp slots ip d ∧
      makeRoom slots ip rank cap perIp = Room.ofVerdict d := by
  have hheld : (slots.filter (·.ip = ip)).length = held Slot.view slots ip :=
    List.countP_eq_length_filter.symm
  unfold makeRoom
  simp only [hheld]
  split_ifs with hshare hcap
  · -- the address has its share: its own stalest entry goes
    have hrefuse : ¬ Free Slot.view cap perIp slots ip :=
      fun h => absurd h.1 (Nat.not_lt.mpr hshare)
    cases hmin : minBy (fun a b => compare a.seen b.seen)
        ((slots.filter (·.ip = ip)).filter (·.rank ≤ rank)) with
    | none =>
      refine ⟨.full, .full hrefuse fun a ha => ?_, rfl⟩
      cases ha with
      | own ha _ hsource =>
        have hmem : a ∈ (slots.filter (·.ip = ip)).filter (·.rank ≤ rank) := by
          simp only [List.mem_filter, decide_eq_true_eq]
          exact ⟨⟨ha, hsource⟩, (hrank a ha).le⟩
        rw [minBy_eq_none hmin] at hmem
        cases hmem
      | other _ hlt => exact absurd hshare (Nat.not_le.mpr hlt)
    | some s =>
      obtain ⟨hmem, hleast⟩ := minBy_key hmin
      simp only [List.mem_filter, decide_eq_true_eq] at hmem hleast
      refine ⟨.replace s, .replace (.own hmem.1.1 hshare hmem.1.2 fun b hb hsource => ?_), rfl⟩
      exact hleast b ⟨⟨hb, hsource⟩, (hrank b hb).le⟩
  · exact ⟨.free, .free ⟨Nat.not_le.mp hshare, hcap⟩, rfl⟩
  · -- the table is full: the oldest entry of the addresses that hold the most goes
    have hlt := Nat.not_le.mp hshare
    have hrefuse : ¬ Free Slot.view cap perIp slots ip := fun h => hcap h.2
    have hfilter : ∀ s, s ∈ slots.filter (fun s => s.rank < rank ∨ (s.rank = rank ∧
        held Slot.view slots ip + 2 ≤ slots.countP (·.ip = s.ip))) ↔
          s ∈ slots ∧ held Slot.view slots ip + 2 ≤ held Slot.view slots s.ip := by
      intro s
      rw [List.mem_filter, decide_eq_true_eq]
      constructor
      · rintro ⟨hs, hlow | ⟨-, hmore⟩⟩
        · exact absurd (hrank s hs) hlow.ne
        · exact ⟨hs, hmore⟩
      · rintro ⟨hs, hmore⟩
        exact ⟨hs, Or.inr ⟨hrank s hs, hmore⟩⟩
    change ∃ d, _ ∧ Room.ofVictim (minBy (weakest fun ip => slots.countP (·.ip = ip)) _) = _
    cases hmin : minBy (weakest fun ip => slots.countP (·.ip = ip))
        (slots.filter fun s => s.rank < rank ∨ (s.rank = rank ∧
          held Slot.view slots ip + 2 ≤ slots.countP (·.ip = s.ip))) with
    | none =>
      refine ⟨.full, .full hrefuse fun a ha => ?_, rfl⟩
      cases ha with
      | own _ hle => exact hshare hle
      | other ha _ _ hmore =>
        have hmem := (hfilter a).mpr ⟨ha, hmore⟩
        rw [minBy_eq_none hmin] at hmem
        cases hmem
    | some s =>
      obtain ⟨hmem, hleast⟩ := minBy_weakest hmin
      obtain ⟨hs, hmore⟩ := (hfilter s).mp hmem
      have hweak : ∀ b ∈ slots, held Slot.view slots ip + 2 ≤ held Slot.view slots b.ip →
          held Slot.view slots b.ip < held Slot.view slots s.ip ∨
            held Slot.view slots s.ip = held Slot.view slots b.ip ∧ s.seen ≤ b.seen := by
        intro b hb hb'
        rcases hleast b ((hfilter b).mpr ⟨hb, hb'⟩) with hlow | ⟨-, h⟩
        · rw [hrank s hs, hrank b hb] at hlow
          exact absurd hlow (Nat.lt_irrefl _)
        · exact h
      refine ⟨.replace s, .replace (.other hs hlt (Nat.not_lt.mp hcap) hmore ?_ ?_), rfl⟩
      · intro b hb
        by_cases hb' : held Slot.view slots ip + 2 ≤ held Slot.view slots b.ip
        · rcases hweak b hb hb' with h | h
          · exact h.le
          · exact h.1.ge
        · exact (Nat.not_le.mp hb').le.trans hmore
      · intro b hb heq
        rcases hweak b hb (heq ▸ hmore) with h | h
        · exact absurd heq h.ne
        · exact h.2

end Rule

namespace Peers

variable {Ip : Type} [DecidableEq Ip] {it : Iteration Str (Entry Ip)} {t : Peers Ip}
  {s : Sighting Ip} {now : ℕ} {key : Str} {old : Entry Ip}

def view : View (Str × Entry Ip) Ip := ⟨fun e => e.2.target.addr.ip, fun e => e.2.seen⟩

omit [DecidableEq Ip] in
theorem corresponds_slots (it : Iteration Str (Entry Ip)) (t : Peers Ip) :
    Corresponds Slot.view view (t.slots it) t.entries
      ((it.order t.entries).map fun e => (⟨e.1, e.2.target.addr.ip, 0, e.2.seen⟩, e)) := by
  constructor
  · rw [List.map_map]
    exact .refl _
  · rw [List.map_map]
    exact (List.map_id _ ▸ it.perm t.entries)
  · intro r hr
    obtain ⟨e, -, rfl⟩ := List.mem_map.mp hr
    rfl
  · intro r hr r' hr'
    obtain ⟨e, -, rfl⟩ := List.mem_map.mp hr
    obtain ⟨e', -, rfl⟩ := List.mem_map.mp hr'
    rfl

theorem victim_of_makeRoom
    (h : makeRoom (t.slots it) s.addr.ip 0 maxPeers maxPeersPerIp = .replace key)
    (hold : t.lookup key = some old) :
    Victim view maxPeers maxPeersPerIp t.entries s.addr.ip (key, old) := by
  have hrank : ∀ slot ∈ t.slots it, slot.rank = 0 := by
    intro slot hslot
    obtain ⟨_, -, -, hrank⟩ := mem_slots hslot
    exact hrank
  obtain ⟨d, hd, hroom⟩ := decides_makeRoom hrank s.addr.ip maxPeers maxPeersPerIp
  rw [hroom] at h
  cases hd with
  | free _ => cases h
  | full _ _ => cases h
  | @replace slot hv =>
    obtain rfl : slot.key = key := by simpa [Room.ofVerdict] using h
    have hc := corresponds_slots it t
    obtain ⟨r, hr, rfl⟩ := hc.mem_left hv.mem
    have hentry := hc.victim hr hv
    obtain ⟨e, he, rfl⟩ := List.mem_map.mp hr
    have he' : t.lookup e.1 = some e.2 := Table.lookup_eq_some_iff.mpr ((it.perm _).mem_iff.mp he)
    obtain rfl : e.2 = old := Option.some.inj (he'.symm.trans hold)
    exact hentry

/-- What another's sighting leaves: an entry stays as it is, or it made room. -/
theorem lookup_upsert (it : Iteration Str (Entry Ip)) (now : ℕ) (hne : key ≠ s.fingerprint)
    (hold : t.lookup key = some old) :
    (t.upsert it s now).1.lookup key = some old ∨
      t.lookup s.fingerprint = none ∧ (t.upsert it s now).1 =
      (t.remove key).set s.fingerprint (entry s now) ∧
        makeRoom (t.slots it) s.addr.ip 0 maxPeers maxPeersPerIp = .replace key := by
  have hset : (t.set s.fingerprint (entry s now)).lookup key = some old := by
    rw [Table.lookup_set, if_neg hne, hold]
  unfold upsert
  split
  · exact Or.inl hset
  · rename_i hnew
    split
    · exact Or.inl hset
    · rename_i victim hroom
      by_cases hkey : key = victim
      · subst hkey
        exact Or.inr ⟨hnew, rfl, hroom⟩
      · left
        dsimp only
        rw [Table.lookup_set, if_neg hne, Table.lookup_remove, if_neg hkey, hold]
    · exact Or.inl hold

/-- A newcomer that removes an entry of another address does so by the rule. -/
theorem fair_upsert (ht : t.size ≤ maxPeers) (hnew : t.lookup s.fingerprint = none)
    (hold : t.lookup key = some old) (hip : old.target.addr.ip ≠ s.addr.ip)
    (hgone : (t.upsert it s now).1.lookup key = none) :
    Fair view maxPeers t.entries (t.upsert it s now).1.entries s.addr.ip (key, old) := by
  have hne : key ≠ s.fingerprint := by
    rintro rfl
    rw [hnew] at hold
    cases hold
  rcases lookup_upsert it now hne hold with hstays | ⟨-, hafter, hroom⟩
  · rw [hstays] at hgone
    cases hgone
  · rw [hafter]
    exact (victim_of_makeRoom hroom hold).fair_set _ hip ht hnew rfl

theorem lone_upsert (ht : t.size ≤ maxPeers) (hne : key ≠ s.fingerprint)
    (hold : t.lookup key = some old) (hip : old.target.addr.ip ≠ s.addr.ip)
    (hone : t.held old.target.addr.ip = 1) : (t.upsert it s now).1.lookup key = some old := by
  rcases lookup_upsert it now hne hold with hstays | ⟨hnew, hafter, -⟩
  · exact hstays
  · have hgone : (t.upsert it s now).1.lookup key = none := by
      rw [hafter, Table.lookup_set, if_neg hne, Table.lookup_remove, if_pos rfl]
    have hmore : _ + 2 ≤ t.held old.target.addr.ip := (fair_upsert ht hnew hold hip hgone).more
    omega

end Peers

end Sukkula.Discovery
