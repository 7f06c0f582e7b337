import Sukkula.LocalSend.Peers

/-! # Leads

The servers that are registered with in every round, by address and the
fingerprint to pin there. A lead that is named again keeps its age and its
failures, and becomes proven if it was not; a newcomer goes where `makeRoom`
says, which never costs a lead that is better proven.
-/

namespace Sukkula.Discovery

open Assoc Iter

def maxLeads : ℕ := 32

def maxLeadsPerIp : ℕ := 4

def maxLeadTries : ℕ := 3

/-- `LEAD_TTL`, in nanoseconds. -/
def leadTtl : ℕ := 600 * 10 ^ 9

structure Lead where
  proven : Bool
  tries : ℕ
  since : ℕ
  deriving DecidableEq, Repr

abbrev LeadKey (Ip : Type) := SocketAddr Ip × Str

abbrev Leads (Ip : Type) := Table (LeadKey Ip) Lead

namespace Leads

variable {Ip : Type} [DecidableEq Ip]

/-- `u8::from(proven)` -/
def rank (proven : Bool) : ℕ := proven.toNat

/-- The leads as `makeRoom` weighs them, in the order in which they are gone through. -/
def slots (it : Iteration (LeadKey Ip) Lead) (t : Leads Ip) : List (Slot (LeadKey Ip) Ip) :=
  (it.order t.entries).map fun (key, lead) => ⟨key, key.1.ip, rank lead.proven, lead.since⟩

/-- Keeps `fingerprint` at `addr` to register with; false when there is no room for it. -/
def add (it : Iteration (LeadKey Ip) Lead) (t : Leads Ip) (addr : SocketAddr Ip) (fingerprint : Str)
    (proven : Bool) (now : ℕ) : Leads Ip × Bool :=
  let key := (addr, fingerprint)
  match t.lookup key with
  | some lead =>
    -- Not a fresh start: repeating a lead cannot keep it alive.
    (t.set key { lead with proven := lead.proven || proven }, true)
  | none =>
    match makeRoom (t.slots it) addr.ip (rank proven) maxLeads maxLeadsPerIp with
    | .free => (t.set key ⟨proven, 0, now⟩, true)
    | .replace victim => ((t.remove victim).set key ⟨proven, 0, now⟩, true)
    | .full => (t, false)

/-- Every lead for this round, after dropping those past `LEAD_TTL`. -/
def due (it : Iteration (LeadKey Ip) Lead) (t : Leads Ip) (now : ℕ) :
    Leads Ip × List (LeadKey Ip) :=
  let t := t.retain fun lead => now - lead.since < leadTtl
  (t, (it.order t.entries).map Prod.fst)

/-- There is nothing left to try at `addr` under that fingerprint. -/
def settle (t : Leads Ip) (addr : SocketAddr Ip) (fingerprint : Str) : Leads Ip :=
  t.remove (addr, fingerprint)

/-- No answer this round; dropped after `MAX_LEAD_TRIES`. -/
def missed (t : Leads Ip) (addr : SocketAddr Ip) (fingerprint : Str) : Leads Ip :=
  match t.lookup (addr, fingerprint) with
  | some lead =>
    -- A count of eight bits that saturates.
    let tries := min (lead.tries + 1) 255
    if maxLeadTries ≤ tries then t.remove (addr, fingerprint)
    else t.set (addr, fingerprint) { lead with tries := tries }
  | none => t

def held (t : Leads Ip) (ip : Ip) : ℕ := t.entries.countP (·.1.1.ip = ip)

inductive Op (Ip : Type)
  | add (it : Iteration (LeadKey Ip) Lead) (addr : SocketAddr Ip) (fingerprint : Str)
  (proven : Bool) (now : ℕ)
  | due (it : Iteration (LeadKey Ip) Lead) (now : ℕ)
  | settle (addr : SocketAddr Ip) (fingerprint : Str)
  | missed (addr : SocketAddr Ip) (fingerprint : Str)

def Op.time : Op Ip → Option ℕ
  | .add _ _ _ _ now | .due _ now => some now
  | .settle .. | .missed .. => none

inductive Event (Ip : Type)
  | inserted (key : LeadKey Ip) (now : ℕ)
  | again (key : LeadKey Ip)
  | refused (key : LeadKey Ip)
  | due (now : ℕ) (leads : List (LeadKey Ip))
  | settled (key : LeadKey Ip)
  | missed (key : LeadKey Ip)
  deriving DecidableEq, Repr

/-- The leads, with what came of the calls, newest first. -/
structure Run (Ip : Type) where
  leads : Leads Ip
  history : List (Event Ip)

def step (t : Leads Ip) : Op Ip → Leads Ip
  | .add it addr fingerprint proven now => (t.add it addr fingerprint proven now).1
  | .due it now => (t.due it now).1
  | .settle addr fingerprint => t.settle addr fingerprint
  | .missed addr fingerprint => t.missed addr fingerprint

def event (t : Leads Ip) : Op Ip → Event Ip
  | .add it addr fingerprint proven now =>
    if (t.lookup (addr, fingerprint)).isSome then .again (addr, fingerprint)
    else if (t.add it addr fingerprint proven now).2 then .inserted (addr, fingerprint) now
    else .refused (addr, fingerprint)
  | .due it now => .due now (t.due it now).2
  | .settle addr fingerprint => .settled (addr, fingerprint)
  | .missed addr fingerprint => .missed (addr, fingerprint)

def Run.step (r : Run Ip) (op : Op Ip) : Run Ip := ⟨r.leads.step op, r.leads.event op :: r.history⟩

def run (ops : List (Op Ip)) : Run Ip := ops.foldl Run.step ⟨.empty, []⟩

/-- The calls came in the order of their times. -/
def Sorted (ops : List (Op Ip)) : Prop := (ops.filterMap Op.time).Pairwise (· ≤ ·)

variable {it : Iteration (LeadKey Ip) Lead} {t t' : Leads Ip} {addr : SocketAddr Ip} {fp : Str}
  {proven : Bool} {now : ℕ} {key k : LeadKey Ip} {lead l : Lead} {ip : Ip} {op : Op Ip}
  {ops : List (Op Ip)}

omit [DecidableEq Ip] in
theorem length_slots (it : Iteration (LeadKey Ip) Lead) (t : Leads Ip) :
    (t.slots it).length = t.size := by
  rw [slots, List.length_map, (it.perm _).length_eq, Table.size]

theorem countP_slots (it : Iteration (LeadKey Ip) Lead) (t : Leads Ip) (ip : Ip) :
    (t.slots it).countP (·.ip = ip) = t.held ip := by
  rw [slots, List.countP_map, (it.perm _).countP_eq]
  rfl

theorem mem_slots {slot : Slot (LeadKey Ip) Ip} (h : slot ∈ t.slots it) :
    ∃ lead, t.lookup slot.key = some lead ∧ slot.ip = slot.key.1.ip ∧ slot.rank =
    rank lead.proven := by
  obtain ⟨⟨key, lead⟩, he, rfl⟩ := List.mem_map.mp h
  exact ⟨lead, Table.lookup_eq_some_iff.mpr ((it.perm _).mem_iff.mp he), rfl, rfl⟩

theorem rank_le_rank {p q : Bool} : rank p ≤ rank q ↔ (p = true → q = true) := by
  cases p <;> cases q <;> simp [rank]

/-- What `add` can do. -/
inductive Adds (t : Leads Ip) (key : LeadKey Ip) (proven : Bool) (now : ℕ) : Leads Ip → Bool → Prop
  | again {lead : Lead} (h : t.lookup key = some lead) :
      Adds t key proven now (t.set key { lead with proven := lead.proven || proven }) true
  | free (h : t.lookup key = none) (hheld : t.held key.1.ip < maxLeadsPerIp)
    (hsize : t.size < maxLeads) :
      Adds t key proven now (t.set key ⟨proven, 0, now⟩) true
  | replace {victim : LeadKey Ip} {old : Lead} (h : t.lookup key = none)
    (hvictim : t.lookup victim = some old)
      (hrank : rank old.proven ≤ rank proven)
      (hheld : victim.1.ip ≠ key.1.ip → t.held key.1.ip < maxLeadsPerIp) :
      Adds t key proven now ((t.remove victim).set key ⟨proven, 0, now⟩) true
  | full (h : t.lookup key = none) : Adds t key proven now t false

theorem adds_add (it : Iteration (LeadKey Ip) Lead) (t : Leads Ip) (addr : SocketAddr Ip) (fp : Str)
    (proven : Bool) (now : ℕ) :
    Adds t (addr, fp) proven now (t.add it addr fp proven now).1
    (t.add it addr fp proven now).2 := by
  unfold add
  cases h : t.lookup (addr, fp) with
  | some lead =>
    simp only [h]
    exact .again h
  | none =>
    simp only [h]
    cases hroom : makeRoom (t.slots it) addr.ip (rank proven) maxLeads maxLeadsPerIp with
    | free =>
      have hfree := room_of_makeRoom hroom
      rw [countP_slots, length_slots] at hfree
      exact .free h hfree.1 hfree.2
    | replace victim =>
      obtain ⟨slot, hslot, rfl, hrank, hshare⟩ := slot_of_makeRoom hroom
      obtain ⟨old, hold, hip, hr⟩ := mem_slots hslot
      rw [countP_slots] at hshare
      exact .replace h hold (hr ▸ hrank) fun hne => hshare (hip ▸ hne)
    | full => exact .full h

theorem held_of_lookup (h : t.lookup key = some lead) (ip : Ip) :
    t.held ip = held (t.remove key) ip + if key.1.ip = ip then 1 else 0 := by
  rw [held, (Table.perm_of_lookup h).countP_eq, List.countP_cons, held]
  simp only [decide_eq_true_eq]

theorem held_set (t : Leads Ip) (key : LeadKey Ip) (lead : Lead) (ip : Ip) :
    held (t.set key lead) ip = held (t.remove key) ip + if key.1.ip = ip then 1 else 0 := by
  rw [held, Table.set, List.countP_cons, held]
  simp only [decide_eq_true_eq]

theorem held_set_of_lookup (h : t.lookup key = some lead) (ip : Ip) :
    held (t.set key l) ip = t.held ip :=
  (held_set t key l ip).trans (held_of_lookup h ip).symm

theorem held_set_of_none (h : t.lookup key = none) (lead : Lead) (ip : Ip) :
    held (t.set key lead) ip = t.held ip + if key.1.ip = ip then 1 else 0 := by
  rw [held_set, held, Table.remove_of_lookup_none h, held]

theorem held_remove_le (t : Leads Ip) (key : LeadKey Ip) (ip : Ip) :
    held (t.remove key) ip ≤ t.held ip :=
  List.filter_sublist.countP_le

/-- No more leads than there may be, in all and for each address. -/
structure Bounded (t : Leads Ip) : Prop where
  size : t.size ≤ maxLeads
  held : ∀ ip, t.held ip ≤ maxLeadsPerIp

theorem Bounded.remove (h : Bounded t) (key : LeadKey Ip) : Bounded (t.remove key) := by
  constructor
  · exact Table.size_remove_le.trans h.size
  · exact fun ip => (held_remove_le t key ip).trans (h.held ip)

theorem Bounded.set_of_lookup (h : Bounded t) (hkey : t.lookup key = some lead) (l : Lead) :
    Bounded (t.set key l) := by
  constructor
  · exact (Table.size_set_of_lookup (by simp [hkey])).trans h.size
  · exact fun ip => (held_set_of_lookup hkey ip).trans_le (h.held ip)

theorem Bounded.insert (h : Bounded t) (hkey : t.lookup key = none) (hsize : t.size < maxLeads)
    (hheld : t.held key.1.ip < maxLeadsPerIp) (l : Lead) : Bounded (t.set key l) := by
  constructor
  · exact Table.size_set_le.trans hsize
  · intro ip
    have hip := h.held ip
    rw [held_set_of_none hkey]
    split_ifs with heq
    · exact heq ▸ hheld
    · exact hip

theorem Bounded.adds {kept : Bool} (h : Bounded t) (ha : Adds t key proven now t' kept) :
    Bounded t' := by
  cases ha with
  | again hkey => exact h.set_of_lookup hkey _
  | free hkey hheld hsize => exact h.insert hkey hsize hheld _
  | @replace victim old hkey hvictim hrank hheld =>
    have hnone : (t.remove victim).lookup key = none := by
      rw [Table.lookup_remove]
      split_ifs
      · rfl
      · exact hkey
    refine (h.remove victim).insert hnone ?_ ?_ _
    · have := Table.size_of_lookup hvictim
      have := h.size
      omega
    · have hold := held_of_lookup hvictim key.1.ip
      have hall := h.held key.1.ip
      by_cases hip : victim.1.ip = key.1.ip
      · rw [if_pos hip] at hold
        omega
      · rw [if_neg hip] at hold
        have := hheld hip
        omega
  | full _ => exact h

theorem Bounded.step (h : Bounded t) (op : Op Ip) : Bounded (t.step op) := by
  cases op with
  | add it addr fp proven now => exact h.adds (adds_add it t addr fp proven now)
  | due it now =>
    constructor
    · exact Table.size_retain_le.trans h.size
    · exact fun ip => (List.filter_sublist.countP_le).trans (h.held ip)
  | settle addr fp => exact h.remove _
  | missed addr fp =>
    unfold Leads.step missed
    cases hkey : t.lookup (addr, fp) with
    | none =>
      simp only [hkey]
      exact h
    | some lead =>
      simp only [hkey]
      split_ifs
      · exact h.remove _
      · exact h.set_of_lookup hkey _

/-- How a lead that is there came to be as it is. -/
inductive Becomes (t : Leads Ip) (e : Event Ip) (k : LeadKey Ip) (l : Lead) : Prop
  | kept {old : Lead} (h : t.lookup k = some old) (hsince : l.since = old.since)
  (htries : l.tries = old.tries)
      (hproven : old.proven = true → l.proven = true) (hmissed : e ≠ .missed k)
      (hinserted : ∀ now, e ≠ .inserted k now)
  | missed {old : Lead} (h : t.lookup k = some old) (hl : l = { old with tries := old.tries + 1 })
      (htries : l.tries < maxLeadTries) (he : e = .missed k)
  | inserted (h : t.lookup k = none) (htries : l.tries = 0) (he : e = .inserted k l.since)

theorem Becomes.same {e : Event Ip} (h : t.lookup k = some l) (hmissed : e ≠ .missed k)
    (hinserted : ∀ now, e ≠ .inserted k now) : Becomes t e k l :=
  .kept h rfl rfl id hmissed hinserted

theorem becomes_add (h : (t.add it addr fp proven now).1.lookup k = some l) :
    Becomes t (t.event (.add it addr fp proven now)) k l := by
  simp only [event]
  have ha := adds_add it t addr fp proven now
  generalize t.add it addr fp proven now = r at ha h ⊢
  obtain ⟨t', kept⟩ := r
  simp only at ha h ⊢
  cases ha with
  | again hkey =>
    rw [Table.lookup_set] at h
    simp only [hkey, Option.isSome_some, if_true]
    split_ifs at h with heq
    · subst heq
      obtain rfl := Option.some.inj h
      exact .kept hkey rfl rfl (fun hp => by simp [hp]) (by simp) (by simp)
    · exact .same h (by simp) (by simp)
  | free hkey =>
    rw [Table.lookup_set] at h
    simp only [hkey, Option.isSome_none, Bool.false_eq_true, if_false, if_true]
    split_ifs at h with heq
    · subst heq
      obtain rfl := Option.some.inj h
      exact .inserted hkey rfl rfl
    · exact .same h (by simp) fun now' he => heq (Event.inserted.inj he).1.symm
  | @replace victim _ hkey =>
    rw [Table.lookup_set, Table.lookup_remove] at h
    simp only [hkey, Option.isSome_none, Bool.false_eq_true, if_false, if_true]
    split_ifs at h with heq hv
    · subst heq
      obtain rfl := Option.some.inj h
      exact .inserted hkey rfl rfl
    · exact .same h (by simp) fun now' he => heq (Event.inserted.inj he).1.symm
  | full hkey =>
    simp only [hkey, Option.isSome_none, Bool.false_eq_true, if_false]
    exact .same h (by simp) (by simp)

theorem becomes_missed (h : (t.missed addr fp).lookup k = some l) :
    Becomes t (.missed (addr, fp)) k l := by
  unfold missed at h
  cases hkey : t.lookup (addr, fp) with
  | none =>
    simp only [hkey] at h
    refine .same h ?_ (by simp)
    intro he
    rw [← (Event.missed.inj he), hkey] at h
    cases h
  | some lead =>
    simp only [hkey] at h
    split_ifs at h with htries
    · rw [Table.lookup_remove] at h
      split_ifs at h with heq
      exact .same h (fun he => heq (Event.missed.inj he).symm) (by simp)
    · rw [Table.lookup_set] at h
      split_ifs at h with heq
      · subst heq
        obtain rfl := Option.some.inj h
        have hmin : min (lead.tries + 1) 255 = lead.tries + 1 := by
          unfold maxLeadTries at htries
          omega
        rw [hmin] at htries ⊢
        exact .missed hkey rfl (Nat.not_le.mp htries) rfl
      · exact .same h (fun he => heq (Event.missed.inj he).symm) (by simp)

theorem becomes_step (h : (t.step op).lookup k = some l) : Becomes t (t.event op) k l := by
  cases op with
  | add it addr fp proven now => exact becomes_add h
  | due it now => exact .same (Table.lookup_retain.mp h).1 (by simp [event]) (by simp [event])
  | settle addr fp =>
    unfold step settle at h
    rw [Table.lookup_remove] at h
    split_ifs at h with heq
    exact .same h (by simp [event]) (by simp [event])
  | missed addr fp => exact becomes_missed h

/-- The lead was put in at `since`, and not again, and was missed `tries` times from then on. -/
def Backed (key : LeadKey Ip) (since tries : ℕ) (past : List (Event Ip)) : Prop :=
  ∃ q p, past = q ++ .inserted key since :: p ∧ (∀ now, .inserted key now ∉ q) ∧
    q.count (.missed key) = tries

theorem Backed.cons {e : Event Ip} {past : List (Event Ip)} {since tries : ℕ}
    (h : Backed key since tries past) (he : ∀ now, e ≠ .inserted key now) :
    Backed key since (tries + if e = .missed key then 1 else 0) (e :: past) := by
  obtain ⟨q, p, rfl, hnot, rfl⟩ := h
  refine ⟨e :: q, p, rfl, ?_, ?_⟩
  · intro now hmem
    rcases List.mem_cons.mp hmem with heq | hmem
    · exact he now heq.symm
    · exact hnot now hmem
  · rw [List.count_cons]
    simp only [beq_iff_eq]

/-- Every lead has its failures and its age from when it was put in. -/
structure Run.Inv (r : Run Ip) : Prop where
  bounded : Bounded r.leads
  backed : ∀ k l, r.leads.lookup k = some l → l.tries < maxLeadTries ∧
    Backed k l.since l.tries r.history

theorem Run.Inv.step {r : Run Ip} (h : r.Inv) (op : Op Ip) : (r.step op).Inv := by
  refine ⟨h.bounded.step op, fun k l hk => ?_⟩
  cases becomes_step hk with
  | kept hold hsince htries hproven hmissed hinserted =>
    obtain ⟨hlt, hb⟩ := h.backed _ _ hold
    have hcons := hb.cons hinserted
    rw [if_neg hmissed, Nat.add_zero, ← hsince, ← htries] at hcons
    exact ⟨htries ▸ hlt, hcons⟩
  | missed hold hl htries he =>
    obtain ⟨-, hb⟩ := h.backed _ _ hold
    have hcons := hb.cons (e := r.leads.event op) (by simp [he])
    rw [if_pos he] at hcons
    subst hl
    exact ⟨htries, hcons⟩
  | inserted hold htries he =>
    rw [htries]
    refine ⟨by decide, [], r.history, ?_, by simp, rfl⟩
    simp only [Run.step, he, List.nil_append]

theorem run_concat (ops : List (Op Ip)) (op : Op Ip) : run (ops ++ [op]) = (run ops).step op := by
  rw [run, List.foldl_append]
  rfl

theorem Run.Inv.run (ops : List (Op Ip)) : (run ops).Inv := by
  induction ops using List.reverseRecOn with
  | nil => exact ⟨⟨Nat.zero_le _, fun _ => Nat.zero_le _⟩, nofun⟩
  | append_singleton ops op ih =>
    rw [run_concat]
    exact ih.step op

theorem rank_le_of_removed (h : t.lookup k = some l)
    (hgone : (t.add it addr fp proven now).1.lookup k = none) : rank l.proven ≤ rank proven := by
  have ha := adds_add it t addr fp proven now
  generalize t.add it addr fp proven now = r at ha hgone
  obtain ⟨t', kept⟩ := r
  simp only at ha hgone
  cases ha with
  | again hkey | free hkey =>
    rw [Table.lookup_set] at hgone
    split_ifs at hgone
    cases h.symm.trans hgone
  | @replace victim old hkey hvictim hrank =>
    rw [Table.lookup_set, Table.lookup_remove] at hgone
    split_ifs at hgone with hk hv
    · subst hv
      obtain rfl := Option.some.inj (h.symm.trans hvictim)
      exact hrank
    · cases h.symm.trans hgone
  | full _ => cases h.symm.trans hgone

theorem proven_step (h : t.lookup k = some l) (hl : l.proven = true)
    (h' : (t.step op).lookup k = some lead) : lead.proven = true := by
  cases becomes_step h' with
  | kept hold _ _ hproven =>
    obtain rfl := Option.some.inj (h.symm.trans hold)
    exact hproven hl
  | missed hold hlead =>
    obtain rfl := Option.some.inj (h.symm.trans hold)
    rw [hlead]
    exact hl
  | inserted hold => cases h.symm.trans hold

theorem proven_run (h : (run ops).leads.lookup k = some l) (hl : l.proven = true)
    (ops' : List (Op Ip)) (hstays : ∀ p, p <+: ops' → (run (ops ++ p)).leads.lookup k ≠ none) :
    ∃ l', (run (ops ++ ops')).leads.lookup k = some l' ∧ l'.proven = true := by
  induction ops' using List.reverseRecOn with
  | nil => exact ⟨l, by rwa [List.append_nil], hl⟩
  | append_singleton ops' op ih =>
    obtain ⟨l', hl', hproven⟩ := ih fun p hp => hstays p (hp.trans (List.prefix_append _ _))
    obtain ⟨l'', hl''⟩ := Option.ne_none_iff_exists'.mp (hstays _ List.prefix_rfl)
    refine ⟨l'', hl'', ?_⟩
    rw [← List.append_assoc, run_concat] at hl''
    exact proven_step hl' hproven hl''

theorem inserted_event {now' : ℕ} (h : t.event op = .inserted k now') : op.time = some now' := by
  cases op with
  | add it addr fp proven now =>
    simp only [event] at h
    split_ifs at h
    obtain ⟨-, rfl⟩ := Event.inserted.inj h
    rfl
  | due it now | settle addr fp | missed addr fp => cases h

theorem time_of_inserted (h : .inserted k now ∈ (run ops).history) :
    now ∈ ops.filterMap Op.time := by
  induction ops using List.reverseRecOn with
  | nil => cases h
  | append_singleton ops op ih =>
    rw [run_concat] at h
    rw [List.filterMap_append, List.mem_append]
    rcases List.mem_cons.mp h with heq | hmem
    · exact Or.inr (by simp [inserted_event heq.symm])
    · exact Or.inl (ih hmem)

theorem lookup_of_due (h : k ∈ (t.due it now).2) :
    ∃ l, t.lookup k = some l ∧ now - l.since < leadTtl := by
  obtain ⟨⟨k, l⟩, he, rfl⟩ := List.mem_map.mp h
  have hlookup := Table.lookup_retain.mp (Table.lookup_eq_some_iff.mpr ((it.perm _).mem_iff.mp he))
  exact ⟨l, hlookup.1, of_decide_eq_true hlookup.2⟩

/-- What a round tries was put in lately and missed seldom. -/
def Due (e : Event Ip) (past : List (Event Ip)) : Prop :=
  ∀ now leads, e = .due now leads → ∀ key ∈ leads,
    ∃ since q p, past = q ++ .inserted key since :: p ∧ (∀ now', .inserted key now' ∉ q) ∧
      since ≤ now ∧ now < since + 600 * 10 ^ 9 ∧ q.count (.missed key) < 3

omit [DecidableEq Ip] in
theorem Sorted.left {ops' : List (Op Ip)} (h : Sorted (ops ++ ops')) : Sorted ops := by
  rw [Sorted, List.filterMap_append, List.pairwise_append] at h
  exact h.1

theorem due_run (h : Sorted ops) : ∀ e past, e :: past <:+ (run ops).history → Due e past := by
  induction ops using List.reverseRecOn with
  | nil =>
    intro e past hs
    simp [run] at hs
  | append_singleton ops op ih =>
    rw [run_concat]
    refine Transition.suffix_cons_forall ?_ (ih h.left)
    rintro now leads he key hkey
    cases op with
    | due it now' =>
      obtain ⟨rfl, rfl⟩ := Event.due.inj he
      obtain ⟨l, hl, hage⟩ := lookup_of_due hkey
      obtain ⟨htries, q, p, hpast, hnot, hcount⟩ := (Run.Inv.run ops).backed key l hl
      have hmem : .inserted key l.since ∈ (run ops).history := by simp [hpast]
      have hle : l.since ≤ now' := by
        rw [Sorted, List.filterMap_append, List.pairwise_append] at h
        exact h.2.2 _ (time_of_inserted hmem) _ (by simp [Op.time])
      refine ⟨l.since, q, p, hpast, hnot, hle, ?_, hcount ▸ htries⟩
      unfold leadTtl at hage
      omega
    | add it addr fp proven now' =>
      simp only [event] at he
      split_ifs at he
    | settle addr fp | missed addr fp => cases he

/-- The leads are few, in all and for each address; an `add` costs none that ranks better than its
own; a lead stays proven while it stays; and what a round tries was put in less than `LEAD_TTL` ago
and missed less than three times since, however often it was added again. -/
theorem leads_kept (ops : List (Op Ip)) (h : Sorted ops) :
    (run ops).leads.size ≤ 32 ∧ (∀ ip, (run ops).leads.held ip ≤ 4) ∧
      (∀ it addr fp proven now k l, (run ops).leads.lookup k = some l →
        ((run ops).leads.add it addr fp proven now).1.lookup k = none →
          (proven = false → l.proven = false) ∧ rank l.proven ≤ rank proven) ∧
      (∀ k l ops', (run ops).leads.lookup k = some l → l.proven = true →
        (∀ p, p <+: ops' → (run (ops ++ p)).leads.lookup k ≠ none) →
          ∃ l', (run (ops ++ ops')).leads.lookup k = some l' ∧ l'.proven = true) ∧
      ∀ e past, e :: past <:+ (run ops).history → Due e past := by
  have hinv := Run.Inv.run ops
  refine ⟨hinv.bounded.size, hinv.bounded.held, ?_, ?_, due_run h⟩
  · intro it addr fp proven now k l hl hgone
    have hrank := rank_le_of_removed hl hgone
    refine ⟨?_, hrank⟩
    rintro rfl
    rw [rank_le_rank] at hrank
    simpa using hrank
  · intro k l ops' hl hproven hstays
    exact proven_run hl hproven ops' hstays

/-- A lead is added, missed, added again with a proof, and tried. -/
def triedAgain : List (Op ℕ) :=
  let it : Iteration (LeadKey ℕ) Lead := ⟨id, fun _ => .refl _⟩
  [.add it ⟨1, 53317⟩ ['F'] false 5, .missed ⟨1, 53317⟩ ['F'],
    .add it ⟨1, 53317⟩ ['F'] true 7, .due it 9]

theorem leads_kept_triedAgain :
    (run triedAgain).history.head? = some (.due 9 [(⟨1, 53317⟩, ['F'])]) ∧
    (run triedAgain).leads.size ≤ 32 := by
  have hsorted : Sorted triedAgain := by
    unfold Sorted
    decide
  exact ⟨by decide +kernel, (leads_kept triedAgain hsorted).1⟩

end Leads

end Sukkula.Discovery
