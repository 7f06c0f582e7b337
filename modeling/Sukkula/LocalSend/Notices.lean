import Mathlib.Data.Finset.Basic
import Sukkula.LocalSend.Peers

/-! # What the user is told about the peers

Every change of the peer table is made under its lock, and told afterwards:
the events of one task can overtake those of another, and discovery can be
switched off between the look at its switch and the change. What was told
agrees with the table where no peer is listed or taken off while something
about it is still to be told, and none is listed after the table was cleared.
-/

namespace Sukkula.Discovery

open Assoc Iter Transition

variable {Ip : Type}

inductive Event (Ip : Type)
  | peerFound (peer : Peer Ip)
  | peerLost (id : Str)

def Event.about : Event Ip → Str
  | .peerFound p => p.id
  | .peerLost id => id

inductive Call (Ip : Type)
  -- `saw_peer`, which found discovery on.
  | saw (s : Sighting Ip) (now : ℕ)
  -- The table was changed, and this is still to be told; `stop` for `stop_discovery`.
  | tells (stop : Bool) (events : List (Event Ip))

def Call.events : Call Ip → List (Event Ip)
  | .saw .. => []
  | .tells _ es => es

structure State (Ip : Type) where
  table : Peers Ip := .empty
  discovering : Bool := false
  -- `stop_discovery` has switched discovery off and not yet cleared the table.
  stopping : Bool := false
  calls : List (Call Ip) := []
  emitted : List (Event Ip) := []

inductive Act (Ip : Type)
  | saw (s : Sighting Ip) (now : ℕ)
  | upsert (i : ℕ) (it : Iteration Str (Entry Ip))
  | expire (it : Iteration Str (Entry Ip)) (now : ℕ)
  | start
  | stop
  | clear (it : Iteration Str (Entry Ip))
  | emit (i : ℕ)

/-- `stop_discovery` has the lock on the adapter's state. -/
def State.locked (s : State Ip) : Bool :=
  s.stopping || s.calls.any fun
    | .tells true (_ :: _) => true
    | _ => false

def Upsert.events (u : Upsert Ip) : List (Event Ip) :=
  u.lost.toList.map .peerLost ++ u.found.toList.map .peerFound

/-- The changes of the table, with what is to be told of each. -/
def State.change [DecidableEq Ip] (s : State Ip) : Act Ip → Peers Ip × List (Event Ip)
  | .upsert i it =>
    match s.calls[i]? with
    | some (.saw x now) => ((s.table.upsert it x now).1, (s.table.upsert it x now).2.events)
    | _ => (s.table, [])
  | .expire it now => ((s.table.expire it now).1, (s.table.expire it now).2.map .peerLost)
  | .clear it => ((s.table.clear it).1, (s.table.clear it).2.map fun p => .peerLost p.1)
  | _ => (s.table, [])

def State.step [DecidableEq Ip] (s : State Ip) (a : Act Ip) : Option (State Ip) :=
  let (table, events) := s.change a
  match a with
  | .saw x now =>
    -- A peer that is not listed is kept as a lead.
    if s.discovering then some { s with calls := s.calls ++ [.saw x now] } else some s
  | .upsert i _ =>
    match s.calls[i]? with
    | some (.saw ..) => some { s with table, calls := s.calls.set i (.tells false events) }
    | _ => none
  | .expire .. => some { s with table, calls := s.calls ++ [.tells false events] }
  | .start => if s.locked then none else some { s with discovering := true }
  | .stop => if s.locked then none else some { s with discovering := false, stopping := true }
  | .clear _ =>
    if s.stopping then
      some { s with table, stopping := false, calls := s.calls ++ [.tells true events] }
    else none
  | .emit i =>
    match s.calls[i]? with
    | some (.tells stop (e :: es)) =>
      some { s with calls := s.calls.set i (.tells stop es), emitted := s.emitted ++ [e] }
    | _ => none

def State.Finished (s : State Ip) : Prop := s.stopping = false ∧ ∀ c ∈ s.calls, ∃ b, c = .tells b []

def Call.done : Call Ip → Bool
  | .tells _ [] => true
  | _ => false

theorem State.finished_of_done {s : State Ip} (hs : s.stopping = false)
    (h : s.calls.all Call.done) : s.Finished := by
  refine ⟨hs, fun c hc => ?_⟩
  match c, List.all_eq_true.mp h c hc with
  | .tells b [], _ => exact ⟨b, rfl⟩

/-- The peers on the list of somebody who was told. -/
def tell (ids : Finset Str) : Event Ip → Finset Str
  | .peerFound p => insert p.id ids
  | .peerLost id => ids.erase id

def told (es : List (Event Ip)) : Finset Str := es.foldl tell ∅

def ids (t : Peers Ip) : Finset Str := (t.entries.map (·.2.peer.id)).toFinset

/-- Something about this peer is still to be told. -/
def State.Pending (s : State Ip) (id : Str) : Prop := ∃ c ∈ s.calls, ∃ e ∈ c.events, e.about = id

/-- No peer is listed or taken off while something about it is still to be told, and none is put
into the table after it was cleared, with discovery still off. -/
def Orderly [DecidableEq Ip] (s : State Ip) (a : Act Ip) : Prop :=
  (∀ id, ¬ (id ∈ ids s.table ↔ id ∈ ids (s.change a).1) → ¬ s.Pending id) ∧
    ((∃ i it, a = .upsert i it) → s.discovering = true ∨ s.stopping = true)

section Table

variable {t t' : Peers Ip} {fp : Str} {e : Entry Ip} {id : Str}

def Keyed (t : Peers Ip) : Prop := ∀ fp e, t.lookup fp = some e → e.peer.id = peerId fp

theorem peerId_injective : Function.Injective peerId := fun _ _ h => List.append_cancel_left h

theorem mem_ids : id ∈ ids t ↔ ∃ fp e, t.lookup fp = some e ∧ e.peer.id = id := by
  simp only [ids, List.mem_toFinset, List.mem_map, Prod.exists, Table.lookup_eq_some_iff]

theorem Keyed.mem_ids (h : Keyed t) : id ∈ ids t ↔ ∃ fp, t.lookup fp ≠ none ∧ peerId fp = id := by
  rw [Discovery.mem_ids]
  constructor
  · rintro ⟨fp, e, he, rfl⟩
    exact ⟨fp, by simp [he], (h fp e he).symm⟩
  · rintro ⟨fp, he, rfl⟩
    obtain ⟨e, he⟩ := Option.ne_none_iff_exists'.mp he
    exact ⟨fp, e, he, h fp e he⟩

theorem Keyed.empty : Keyed (.empty : Peers Ip) := nofun

theorem Keyed.remove (h : Keyed t) (key : Str) : Keyed (t.remove key) := by
  intro fp e he
  rw [Table.lookup_remove] at he
  split_ifs at he
  exact h fp e he

theorem Keyed.set (h : Keyed t) (s : Sighting Ip) (now : ℕ) :
    Keyed (t.set s.fingerprint (Peers.entry s now)) := by
  intro fp e he
  rw [Table.lookup_set] at he
  split_ifs at he with hfp
  · obtain rfl := Option.some.inj he
    rw [hfp]
    rfl
  · exact h fp e he

theorem Keyed.retain (h : Keyed t) (p : Entry Ip → Bool) : Keyed (t.retain p) :=
  fun fp e he => h fp e (Table.lookup_retain.mp he).1

theorem ids_set (h : Keyed t) (s : Sighting Ip) (now : ℕ) (id : Str) :
    id ∈ ids (t.set s.fingerprint (Peers.entry s now)) ↔ id = peerId s.fingerprint ∨
    id ∈ ids t := by
  rw [(h.set s now).mem_ids, h.mem_ids]
  constructor
  · rintro ⟨fp, hfp, rfl⟩
    rw [Table.lookup_set] at hfp
    split_ifs at hfp with he
    · exact Or.inl (congrArg peerId he)
    · exact Or.inr ⟨fp, hfp, rfl⟩
  · rintro (rfl | ⟨fp, hfp, rfl⟩)
    · exact ⟨s.fingerprint, by simp, rfl⟩
    · refine ⟨fp, ?_, rfl⟩
      rw [Table.lookup_set]
      split_ifs
      · exact Option.some_ne_none _
      · exact hfp

theorem ids_remove (h : Keyed t) (key id : Str) :
    id ∈ ids (t.remove key) ↔ id ∈ ids t ∧ id ≠ peerId key := by
  rw [(h.remove key).mem_ids, h.mem_ids]
  constructor
  · rintro ⟨fp, hfp, rfl⟩
    rw [Table.lookup_remove] at hfp
    split_ifs at hfp with he
    · exact absurd rfl hfp
    · exact ⟨⟨fp, hfp, rfl⟩, fun hid => he (peerId_injective hid)⟩
  · rintro ⟨⟨fp, hfp, rfl⟩, hne⟩
    refine ⟨fp, ?_, rfl⟩
    rw [Table.lookup_remove, if_neg fun he => hne (congrArg peerId he)]
    exact hfp

/-- What is told of a change is true of the table afterwards, and nothing is left out. -/
structure Reports (t t' : Peers Ip) (es : List (Event Ip)) : Prop where
  keyed : Keyed t'
  lost : ∀ id, .peerLost id ∈ es → id ∉ ids t'
  found : ∀ p, .peerFound p ∈ es → p.id ∈ ids t'
  all : ∀ id, ¬ (id ∈ ids t ↔ id ∈ ids t') → ∃ e ∈ es, e.about = id

theorem Reports.refl (h : Keyed t) : Reports t t [] :=
  ⟨h, nofun, nofun, fun _ hid => absurd Iff.rfl hid⟩

theorem reports_upsert [DecidableEq Ip] (h : Keyed t) {s : Sighting Ip} {now : ℕ} {u : Upsert Ip}
    (hu : Peers.Upserts t s (Peers.entry s now) t' u) : Reports t t' u.events := by
  have hset := ids_set h s now
  cases hu with
  | @known old found hold hfound =>
    have hin : peerId s.fingerprint ∈ ids t := h.mem_ids.mpr ⟨_, by simp [hold], rfl⟩
    refine ⟨h.set s now, ?_, ?_, fun id hid => absurd ?_ hid⟩
    · intro id hid
      simp [Upsert.events] at hid
    · intro p hp
      have hp : p ∈ found := by simpa [Upsert.events, eq_comm] using hp
      rw [hfound p hp]
      exact (hset _).mpr (Or.inl rfl)
    · rw [hset]
      exact ⟨Or.inr, fun hid => hid.elim (fun he => he ▸ hin) fun hid => hid⟩
  | free hnone =>
    refine ⟨h.set s now, ?_, ?_, fun id hid => ?_⟩
    · intro id hid
      simp [Upsert.events] at hid
    · intro p hp
      obtain rfl : p = (Peers.entry s now).peer := by simpa [Upsert.events] using hp
      exact (hset _).mpr (Or.inl rfl)
    · refine ⟨.peerFound (Peers.entry s now).peer, by simp [Upsert.events], ?_⟩
      rw [hset] at hid
      by_contra hne
      have hne : id ≠ peerId s.fingerprint := fun he => hne he.symm
      exact hid ⟨Or.inr, fun h => h.resolve_left hne⟩
  | @replace key old hnone hkey =>
    have hold : old.peer.id = peerId key := h key old hkey
    have hset := ids_set (h.remove key) s now
    have hfp : s.fingerprint ≠ key := by
      rintro rfl
      rw [hkey] at hnone
      cases hnone
    refine ⟨(h.remove key).set s now, ?_, ?_, fun id hid => ?_⟩
    · intro id hid
      obtain rfl : id = old.peer.id := by simpa [Upsert.events] using hid
      rw [hset, ids_remove h, hold]
      rintro (he | ⟨-, hne⟩)
      · exact hfp (peerId_injective he).symm
      · exact hne rfl
    · intro p hp
      obtain rfl : p = (Peers.entry s now).peer := by simpa [Upsert.events] using hp
      exact (hset _).mpr (Or.inl rfl)
    · by_cases hs : id = peerId s.fingerprint
      · exact ⟨.peerFound (Peers.entry s now).peer, by simp [Upsert.events], hs.symm⟩
      · refine ⟨.peerLost old.peer.id, by simp [Upsert.events], ?_⟩
        by_contra hne
        have hne : id ≠ peerId key := fun he => hne (hold.trans he.symm)
        apply hid
        rw [hset, ids_remove h]
        exact ⟨fun h => Or.inr ⟨h, hne⟩, fun h => (h.resolve_left hs).1⟩
  | full => exact .refl h

theorem reports_expire (h : Keyed t) (it : Iteration Str (Entry Ip)) (now : ℕ) :
    Reports t (t.expire it now).1 ((t.expire it now).2.map .peerLost) := by
  have hk : Keyed (t.retain fun e => now - e.seen < peerTtl) := h.retain _
  refine ⟨hk, ?_, ?_, ?_⟩
  · intro id hid
    obtain ⟨id', hmem, he⟩ := List.mem_map.mp hid
    obtain rfl := Event.peerLost.inj he
    obtain ⟨⟨fp, e⟩, hfe, rfl⟩ := List.mem_map.mp hmem
    obtain ⟨hfe, hold⟩ := List.mem_filter.mp hfe
    have hlook : t.lookup fp = some e := Table.lookup_eq_some_iff.mpr ((it.perm _).mem_iff.mp hfe)
    intro hin
    obtain ⟨fp', e', he', hid'⟩ := mem_ids.mp hin
    obtain ⟨he', hfresh⟩ := Table.lookup_retain.mp he'
    obtain rfl : fp' = fp := by
      apply peerId_injective
      rw [← h fp' e' he', ← h fp e hlook]
      exact hid'
    obtain rfl := Option.some.inj (he'.symm.trans hlook)
    simp_all
  · intro p hp
    simp at hp
  · intro id hid
    by_contra hnone
    refine hid ⟨fun hin => ?_, fun hin => ?_⟩
    · obtain ⟨fp, e, he, rfl⟩ := mem_ids.mp hin
      refine mem_ids.mpr ⟨fp, e, Table.lookup_retain.mpr ⟨he, ?_⟩, rfl⟩
      by_contra hold
      refine hnone ⟨.peerLost e.peer.id, ?_, rfl⟩
      refine List.mem_map_of_mem (List.mem_map.mpr ⟨(fp, e), List.mem_filter.mpr ⟨?_, ?_⟩, rfl⟩)
      · exact (it.perm _).mem_iff.mpr (Table.lookup_eq_some_iff.mp he)
      · simpa using hold
    · obtain ⟨fp, e, he, rfl⟩ := mem_ids.mp hin
      exact mem_ids.mpr ⟨fp, e, (Table.lookup_retain.mp he).1, rfl⟩

theorem reports_clear (it : Iteration Str (Entry Ip)) (t : Peers Ip) :
    Reports t (t.clear it).1 ((t.clear it).2.map fun p => .peerLost p.1) := by
  have hempty : ∀ id, id ∉ ids (Table.empty : Peers Ip) := fun id => by simp [ids, Table.empty]
  refine ⟨.empty, fun id _ => hempty id, ?_, ?_⟩
  · intro p hp
    simp at hp
  · intro id hid
    have hin : id ∈ ids t := by
      by_contra hin
      exact hid ⟨fun h => absurd h hin, fun h => absurd h (hempty id)⟩
    obtain ⟨fp, e, he, rfl⟩ := mem_ids.mp hin
    refine ⟨.peerLost e.peer.id, List.mem_map.mpr ⟨(e.peer.id, e.target), ?_, rfl⟩, rfl⟩
    exact List.mem_map.mpr ⟨(fp, e), (it.perm _).mem_iff.mpr (Table.lookup_eq_some_iff.mp he), rfl⟩

end Table

/-- What is still to be told is true of the table, and of the other peers what was told is. -/
structure Agreed (table : Peers Ip) (calls : List (Call Ip)) (emitted : List (Event Ip)) :
    Prop where
  keyed : Keyed table
  found : ∀ c ∈ calls, ∀ p, .peerFound p ∈ c.events → p.id ∈ ids table
  lost : ∀ c ∈ calls, ∀ id, .peerLost id ∈ c.events → id ∉ ids table
  told : ∀ id, (∀ c ∈ calls, ∀ e ∈ c.events, e.about ≠ id) → (id ∈ told emitted ↔ id ∈ ids table)

namespace Agreed

variable {table table' : Peers Ip} {calls calls' : List (Call Ip)} {emitted es : List (Event Ip)}

theorem change (h : Agreed table calls emitted) (hr : Reports table table' es)
    (hfree : ∀ id, ¬ (id ∈ ids table ↔ id ∈ ids table') → ∀ c ∈ calls, ∀ e ∈ c.events, e.about ≠ id)
    (hnew : ∀ c ∈ calls', c ∈ calls ∨ c.events = es)
    (hold : ∀ c ∈ calls, c.events ≠ [] → c ∈ calls') (hes : ∃ c ∈ calls', c.events = es) :
    Agreed table' calls' emitted := by
  constructor
  · exact hr.keyed
  · intro c hc p hp
    rcases hnew c hc with hc | hc
    · have hin := h.found c hc p hp
      by_contra hout
      exact hfree p.id (fun h => hout (h.mp hin)) c hc _ hp rfl
    · exact hr.found p (hc ▸ hp)
  · intro c hc id hid
    rcases hnew c hc with hc | hc
    · have hout := h.lost c hc id hid
      intro hin
      exact hfree id (fun h => hout (h.mpr hin)) c hc _ hid rfl
    · exact hr.lost id (hc ▸ hid)
  · intro id hnone
    obtain ⟨c', hc', hevents⟩ := hes
    have hsame : id ∈ ids table ↔ id ∈ ids table' := by
      by_contra hid
      obtain ⟨e, he, habout⟩ := hr.all id hid
      exact hnone c' hc' e (hevents ▸ he) habout
    rw [← hsame]
    refine h.told id fun c hc e he => ?_
    exact hnone c (hold c hc fun hnil => by simp [hnil] at he) e he

theorem concat (h : Agreed table calls emitted) (hr : Reports table table' es)
    (hfree : ∀ id, ¬ (id ∈ ids table ↔ id ∈ ids table') → ∀ c ∈ calls, ∀ e ∈ c.events, e.about ≠ id)
    {call : Call Ip} (hcall : call.events = es) : Agreed table' (calls ++ [call]) emitted := by
  apply h.change hr hfree
  · intro c hc
    rcases List.mem_append.mp hc with hc | hc
    · exact Or.inl hc
    · rw [List.mem_singleton.mp hc]
      exact Or.inr hcall
  · intro c hc _
    exact List.mem_append_left _ hc
  · exact ⟨call, List.mem_append_right _ List.mem_cons_self, hcall⟩

theorem told_concat (emitted : List (Event Ip)) (e : Event Ip) :
    Discovery.told (emitted ++ [e]) = tell (Discovery.told emitted) e := by
  rw [Discovery.told, List.foldl_append]
  rfl

theorem emit (h : Agreed table calls emitted) {i : ℕ} {stop : Bool} {e : Event Ip}
    (hi : calls[i]? = some (.tells stop (e :: es))) :
    Agreed table (calls.set i (.tells stop es)) (emitted ++ [e]) := by
  have hmem : Call.tells stop (e :: es) ∈ calls := List.mem_of_getElem? hi
  have hcalls : ∀ c ∈ calls.set i (.tells stop es), ∃ c' ∈ calls, ∀ e ∈ c.events,
      e ∈ c'.events := by
    intro c hc
    rcases List.mem_or_eq_of_mem_set hc with hc | rfl
    · exact ⟨c, hc, fun e he => he⟩
    · exact ⟨_, hmem, fun e he => List.mem_cons_of_mem _ he⟩
  constructor
  · exact h.keyed
  · intro c hc p hp
    obtain ⟨c', hc', hsub⟩ := hcalls c hc
    exact h.found c' hc' p (hsub _ hp)
  · intro c hc id hid
    obtain ⟨c', hc', hsub⟩ := hcalls c hc
    exact h.lost c' hc' id (hsub _ hid)
  · intro id hnone
    rw [told_concat]
    by_cases hid : e.about = id
    · subst hid
      cases e with
      | peerFound p =>
        have hin := h.found _ hmem p List.mem_cons_self
        exact ⟨fun _ => hin, fun _ => Finset.mem_insert_self _ _⟩
      | peerLost id =>
        have hout := h.lost _ hmem id List.mem_cons_self
        exact ⟨fun hin => absurd hin (Finset.notMem_erase _ _), fun hin => absurd hin hout⟩
    · have hsame : id ∈ tell (Discovery.told emitted) e ↔ id ∈ Discovery.told emitted := by
        cases e with
        | peerFound p =>
          exact Finset.mem_insert.trans ⟨fun h => h.resolve_left (Ne.symm hid), Or.inr⟩
        | peerLost id' => exact Finset.mem_erase.trans ⟨And.right, fun h => ⟨Ne.symm hid, h⟩⟩
      rw [hsame]
      refine h.told id fun c hc e' he' => ?_
      -- What another call, or the rest of this one, has still to tell.
      obtain ⟨j, hj⟩ := List.mem_iff_getElem?.mp hc
      by_cases hij : i = j
      · subst hij
        obtain rfl := Option.some.inj (hi.symm.trans hj)
        rcases List.mem_cons.mp he' with rfl | he'
        · exact hid
        · refine hnone (.tells stop es) ?_ e' he'
          exact List.mem_set (List.getElem?_eq_some_iff.mp hi).1 _
      · refine hnone c (List.mem_iff_getElem?.mpr ⟨j, ?_⟩) e' he'
        rw [List.getElem?_set_ne hij]
        exact hj

end Agreed

section Runs

variable [DecidableEq Ip] {s s' : State Ip} {a : Act Ip}

structure State.Inv (s : State Ip) : Prop where
  agreed : Agreed s.table s.calls s.emitted
  off : s.discovering = false → s.stopping = false → ids s.table = ∅

theorem Orderly.free (h : Orderly s a) (id : Str)
    (hid : ¬ (id ∈ ids s.table ↔ id ∈ ids (s.change a).1)) :
    ∀ c ∈ s.calls, ∀ e ∈ c.events, e.about ≠ id :=
  fun c hc e he habout => h.1 id hid ⟨c, hc, e, he, habout⟩

theorem Agreed.append (h : Agreed s.table s.calls s.emitted) (ho : Orderly s a) {stop : Bool}
    (hr : Reports s.table (s.change a).1 (s.change a).2) :
    Agreed (s.change a).1 (s.calls ++ [.tells stop (s.change a).2]) s.emitted :=
  h.concat hr ho.free rfl

theorem Agreed.upsert (h : Agreed s.table s.calls s.emitted) {i : ℕ} {it : Iteration Str (Entry Ip)}
    {x : Sighting Ip} {now : ℕ} (ho : Orderly s (.upsert i it))
    (hi : s.calls[i]? = some (.saw x now)) :
    Agreed (s.change (.upsert i it)).1 (s.calls.set i (.tells false (s.change (.upsert i it)).2))
      s.emitted := by
  have hr : Reports s.table (s.change (.upsert i it)).1 (s.change (.upsert i it)).2 := by
    simp only [State.change, hi]
    exact reports_upsert h.keyed (Peers.upserts_upsert it s.table x now)
  refine h.change hr ho.free ?_ ?_ ?_
  · intro c hc
    rcases List.mem_or_eq_of_mem_set hc with hc | rfl
    · exact Or.inl hc
    · exact Or.inr rfl
  · intro c hc hne
    obtain ⟨j, hj⟩ := List.mem_iff_getElem?.mp hc
    refine List.mem_iff_getElem?.mpr ⟨j, ?_⟩
    rw [List.getElem?_set_ne]
    · exact hj
    · rintro rfl
      obtain rfl := Option.some.inj (hi.symm.trans hj)
      exact hne rfl
  · exact ⟨_, List.mem_set (List.getElem?_eq_some_iff.mp hi).1 _, rfl⟩

theorem State.Inv.step (h : s.Inv) (ho : Orderly s a) (hs : s.step a = some s') : s'.Inv := by
  cases a with
  | saw x now =>
    simp only [State.step] at hs
    split_ifs at hs
    · obtain rfl := Option.some.inj hs
      exact ⟨h.agreed.concat (.refl h.agreed.keyed) (fun id hid => absurd Iff.rfl hid) rfl, h.off⟩
    · obtain rfl := Option.some.inj hs
      exact h
  | upsert i it =>
    simp only [State.step] at hs
    split at hs
    · rename_i hi
      obtain rfl := Option.some.inj hs
      refine ⟨h.agreed.upsert ho hi, fun hd hst => ?_⟩
      rcases ho.2 ⟨i, it, rfl⟩ with hon | hon
      · cases hon.symm.trans hd
      · cases hon.symm.trans hst
    · cases hs
  | expire it now =>
    obtain rfl := Option.some.inj hs
    refine ⟨h.agreed.append ho (reports_expire h.agreed.keyed it now), fun hd hst => ?_⟩
    have hnone := h.off hd hst
    refine Finset.eq_empty_of_forall_notMem fun id hid => ?_
    obtain ⟨fp, e, he, rfl⟩ := mem_ids.mp hid
    have hin : e.peer.id ∈ ids s.table := mem_ids.mpr ⟨fp, e, (Table.lookup_retain.mp he).1, rfl⟩
    simp [hnone] at hin
  | start =>
    simp only [State.step] at hs
    split_ifs at hs
    obtain rfl := Option.some.inj hs
    exact ⟨h.agreed, nofun⟩
  | stop =>
    simp only [State.step] at hs
    split_ifs at hs
    obtain rfl := Option.some.inj hs
    exact ⟨h.agreed, nofun⟩
  | clear it =>
    simp only [State.step] at hs
    split_ifs at hs
    obtain rfl := Option.some.inj hs
    exact ⟨h.agreed.append ho (reports_clear it s.table), fun _ _ => rfl⟩
  | emit i =>
    simp only [State.step] at hs
    split at hs
    · rename_i hi
      obtain rfl := Option.some.inj hs
      exact ⟨h.agreed.emit hi, h.off⟩
    · cases hs

omit [DecidableEq Ip] in
theorem State.Inv.told_eq (h : s.Inv) (hf : s.Finished) : told s.emitted = ids s.table := by
  ext id
  refine h.agreed.told id fun c hc e he => ?_
  obtain ⟨b, rfl⟩ := hf.2 c hc
  cases he

/-- When all calls have finished, the peers that were told of are those in the table, and there are
none if discovery is off, in every run whose steps are orderly. -/
theorem told_as_listed (as : List (Act Ip)) (s : State Ip) (hrun : exec State.step {} as = some s)
    (ho : Along State.step Orderly {} as) (hf : s.Finished) :
    told s.emitted = ids s.table ∧ (s.discovering = false → ids s.table = ∅) := by
  have hinit : State.Inv ({} : State Ip) :=
    ⟨⟨.empty, nofun, nofun, fun _ _ => Iff.rfl⟩, fun _ _ => rfl⟩
  have hinv := exec_invariant_along (fun _ _ _ h ho hs => State.Inv.step h ho hs) hinit ho hrun
  exact ⟨hinv.told_eq hf, fun hoff => hinv.off hoff hf.1⟩

end Runs

def device : Sighting ℕ := ⟨['A'], ⟨1, 53317⟩, [], none, .unknown⟩

def unordered : Iteration Str (Entry ℕ) := ⟨id, fun _ => .refl _⟩

def another : Sighting ℕ := ⟨['B'], ⟨2, 53317⟩, [], none, .unknown⟩

/-- Two devices are seen at once and told of, the second before the first. Both are lost, the first
is found again. -/
def seenTwo : List (Act ℕ) :=
  [.start, .saw device 0, .saw another 0, .upsert 1 unordered, .upsert 0 unordered,
    .emit 0, .emit 1, .stop, .clear unordered, .emit 2, .emit 2, .start, .saw device 9,
    .upsert 3 unordered, .emit 3]

theorem told_as_listed_two : ∃ s, exec State.step {} seenTwo = some s ∧
    told s.emitted = ids s.table ∧ ids s.table = {peerId ['A']} ∧ s.emitted.length = 5 := by
  refine ⟨_, rfl, ?_, by decide, by decide⟩
  have horderly : ∀ (s : State ℕ) (a : Act ℕ),
      (∀ c ∈ s.calls, ∀ e ∈ c.events, e.about ∈ ids s.table ↔ e.about ∈ ids (s.change a).1) →
      ((∃ i it, a = .upsert i it) → s.discovering = true ∨ s.stopping = true) → Orderly s a := by
    rintro s a hfree hon
    refine ⟨?_, hon⟩
    rintro id hid ⟨c, hc, e, he, rfl⟩
    exact hid (hfree c hc e he)
  have ho : Along State.step Orderly {} seenTwo := by
    iterate 3 refine Along.cons (horderly _ _ (by decide) nofun) rfl ?_
    iterate 2 refine Along.cons (horderly _ _ (by decide) fun _ => Or.inl rfl) rfl ?_
    iterate 8 refine Along.cons (horderly _ _ (by decide) nofun) rfl ?_
    refine Along.cons (horderly _ _ (by decide) fun _ => Or.inl rfl) rfl ?_
    exact Along.cons (horderly _ _ (by decide) nofun) rfl trivial
  exact (told_as_listed seenTwo _ rfl ho (State.finished_of_done rfl (by decide))).1

/-- The table is cleared between the change and its event. -/
def overtaken : List (Act ℕ) :=
  [.start, .saw device 0, .upsert 0 unordered, .stop, .clear unordered, .emit 1, .emit 0]

theorem told_after_clear : ¬ ∀ (as : List (Act ℕ)) (s : State ℕ), exec State.step {} as = some s →
    s.Finished → told s.emitted = ids s.table ∧ (s.discovering = false → ids s.table = ∅) := by
  intro h
  have hf := State.finished_of_done (s := ((exec State.step {} overtaken).getD {}))
    (by decide) (by decide)
  have htold := (h overtaken _ rfl hf).1
  exact absurd htold (by decide)

end Sukkula.Discovery
