import Mathlib.Data.List.Pairwise
import Mathlib.Data.List.Perm.Basic
import Sukkula.Library.Assoc

/-! # Tables that are shared fairly

A bounded table whose entries each come from a source. A source that has its share
replaces its own oldest entry. At a full table a newcomer replaces the oldest entry
of the sources that hold the most, if these hold at least two more than its own;
otherwise it is refused.
-/

namespace Sukkula.Share

variable {α β ι : Type*} [DecidableEq ι]

/-- How the entries are weighed; what is older has the smaller age. -/
structure View (α ι : Type*) where
  source : α → ι
  age : α → ℕ

variable (v : View α ι) (cap share : ℕ) (l : List α) (x : ι)

def held : ℕ := l.countP (v.source · = x)

/-- There is room for one more of `x`. -/
def Free : Prop := held v l x < share ∧ l.length < cap

/-- The entry a newcomer from `x` replaces. -/
inductive Victim (a : α) : Prop
  | own (ha : a ∈ l) (hshare : share ≤ held v l x) (hsource : v.source a = x)
      (hold : ∀ b ∈ l, v.source b = x → v.age a ≤ v.age b)
  | other (ha : a ∈ l) (hshare : held v l x < share) (hfull : cap ≤ l.length)
      (hmore : held v l x + 2 ≤ held v l (v.source a))
      (hmost : ∀ b ∈ l, held v l (v.source b) ≤ held v l (v.source a))
      (hold : ∀ b ∈ l, held v l (v.source b) = held v l (v.source a) → v.age a ≤ v.age b)

inductive Verdict (α : Type*)
  | free
  | replace (a : α)
  | full

inductive Decides : Verdict α → Prop
  | free (h : Free v cap share l x) : Decides .free
  | replace {a : α} (h : Victim v cap share l x a) : Decides (.replace a)
  | full (hfree : ¬ Free v cap share l x) (hnone : ∀ a, ¬ Victim v cap share l x a) : Decides .full

variable {v cap share l x} {w : View β ι} {m : List β} {a b : α}

theorem held_perm {l' : List α} (h : l.Perm l') (x : ι) : held v l x = held v l' x := h.countP_eq _

theorem held_cons (a : α) (l : List α) (x : ι) :
    held v (a :: l) x = held v l x + if v.source a = x then 1 else 0 := by
  rw [held, List.countP_cons]
  simp only [decide_eq_true_eq]
  rfl

theorem Victim.mem (h : Victim v cap share l x a) : a ∈ l := by
  cases h <;> assumption

theorem Victim.not_free (h : Victim v cap share l x a) : ¬ Free v cap share l x := by
  rintro ⟨hshare, hcap⟩
  cases h with
  | own _ h => omega
  | other _ _ h => omega

def Distinct (v : View α ι) (l : List α) : Prop := l.Pairwise fun a b => v.age a ≠ v.age b

omit [DecidableEq ι] in
theorem Distinct.eq (h : Distinct v l) (ha : a ∈ l) (hb : b ∈ l) (hage : v.age a = v.age b) :
    a = b := by
  have : Std.Symm fun a b => v.age a ≠ v.age b := ⟨fun _ _ => Ne.symm⟩
  by_contra hne
  exact List.Pairwise.forall h ha hb hne hage

/-- Where no two entries are of an age there is one victim at most. -/
theorem Victim.unique (hage : Distinct v l)
    (ha : Victim v cap share l x a) (hb : Victim v cap share l x b) : a = b := by
  apply hage.eq ha.mem hb.mem
  cases ha with
  | own ha hshare hsource hold =>
    cases hb with
    | own hb _ hsource' hold' => exact Nat.le_antisymm (hold b hb hsource') (hold' a ha hsource)
    | other _ hshare' => omega
  | other ha hshare _ _ hmost hold =>
    cases hb with
    | own _ hshare' => omega
    | other hb _ _ _ hmost' hold' =>
      have heq := Nat.le_antisymm (hmost b hb) (hmost' a ha)
      exact Nat.le_antisymm (hold b hb heq) (hold' a ha heq.symm)

section Rows

/-- Two tables with the same entries as far as the rule sees them, row by row. -/
structure Corresponds (v : View α ι) (w : View β ι) (l : List α) (m : List β)
    (rows : List (α × β)) : Prop where
  left : (rows.map Prod.fst).Perm l
  right : (rows.map Prod.snd).Perm m
  source : ∀ r ∈ rows, v.source r.1 = w.source r.2
  older : ∀ r ∈ rows, ∀ r' ∈ rows, v.age r.1 < v.age r'.1 ↔ w.age r.2 < w.age r'.2

variable {rows : List (α × β)}

theorem Corresponds.held_eq (h : Corresponds v w l m rows) (x : ι) : held v l x = held w m x := by
  rw [← held_perm h.left, ← held_perm h.right, held, held, List.countP_map, List.countP_map]
  apply List.countP_congr
  intro r hr
  simp only [Function.comp_apply, h.source r hr]

omit [DecidableEq ι] in
theorem Corresponds.length_eq (h : Corresponds v w l m rows) : l.length = m.length := by
  rw [← h.left.length_eq, ← h.right.length_eq, List.length_map, List.length_map]

omit [DecidableEq ι] in
theorem Corresponds.mem_left (h : Corresponds v w l m rows) (ha : a ∈ l) : ∃ r ∈ rows, r.1 = a :=
  List.mem_map.mp (h.left.mem_iff.mpr ha)

omit [DecidableEq ι] in
theorem Corresponds.mem_right (h : Corresponds v w l m rows) {b : β} (hb : b ∈ m) :
    ∃ r ∈ rows, r.2 = b :=
  List.mem_map.mp (h.right.mem_iff.mpr hb)

theorem Corresponds.free_iff (h : Corresponds v w l m rows) :
    Free v cap share l x ↔ Free w cap share m x := by
  rw [Free, Free, h.held_eq, h.length_eq]

theorem Corresponds.victim (h : Corresponds v w l m rows) {r : α × β} (hr : r ∈ rows)
    (hv : Victim v cap share l x r.1) : Victim w cap share m x r.2 := by
  have hmem : r.2 ∈ m := h.right.mem_iff.mp (List.mem_map_of_mem hr)
  have hle : ∀ r' ∈ rows, v.age r.1 ≤ v.age r'.1 → w.age r.2 ≤ w.age r'.2 := fun r' hr' hle =>
    Nat.not_lt.mp (mt (h.older r' hr' r hr).mpr (Nat.not_lt.mpr hle))
  have hin : ∀ r' ∈ rows, r'.1 ∈ l := fun r' hr' => h.left.mem_iff.mp (List.mem_map_of_mem hr')
  cases hv with
  | own _ hshare hsource hold =>
    refine .own hmem (by rwa [← h.held_eq]) (by rw [← h.source r hr, hsource]) ?_
    intro b hb hb'
    obtain ⟨r', hr', rfl⟩ := h.mem_right hb
    exact hle r' hr' (hold r'.1 (hin r' hr') (by rw [h.source r' hr', hb']))
  | other _ hshare hfull hmore hmost hold =>
    rw [h.source r hr] at hmore hmost hold
    simp only [h.held_eq] at hshare hmore hmost hold
    refine .other hmem hshare (by rwa [← h.length_eq]) hmore ?_ ?_
    · intro b hb
      obtain ⟨r', hr', rfl⟩ := h.mem_right hb
      rw [← h.source r' hr']
      exact hmost r'.1 (hin r' hr')
    · intro b hb heq
      obtain ⟨r', hr', rfl⟩ := h.mem_right hb
      rw [← h.source r' hr'] at heq
      exact hle r' hr' (hold r'.1 (hin r' hr') heq)

omit [DecidableEq ι] in
theorem Corresponds.swap (h : Corresponds v w l m rows) :
    Corresponds w v m l (rows.map Prod.swap) := by
  constructor
  · rw [List.map_map]
    exact h.right
  · rw [List.map_map]
    exact h.left
  · intro s hs
    obtain ⟨r, hr, rfl⟩ := List.mem_map.mp hs
    exact (h.source r hr).symm
  · intro s hs s' hs'
    obtain ⟨r, hr, rfl⟩ := List.mem_map.mp hs
    obtain ⟨r', hr', rfl⟩ := List.mem_map.mp hs'
    exact (h.older r hr r' hr').symm

theorem Corresponds.victim_iff (h : Corresponds v w l m rows) {r : α × β} (hr : r ∈ rows) :
    Victim v cap share l x r.1 ↔ Victim w cap share m x r.2 := by
  refine ⟨h.victim hr, fun hw => ?_⟩
  exact h.swap.victim (r := r.swap) (List.mem_map_of_mem hr) hw

theorem Corresponds.agree (h : Corresponds v w l m rows) (hage : Distinct w m) {d : Verdict α}
    {e : Verdict β} (hd : Decides v cap share l x d) (he : Decides w cap share m x e) :
    (d = .free ∧ e = .free) ∨ (∃ r ∈ rows, d = .replace r.1 ∧ e = .replace r.2) ∨
      (d = .full ∧ e = .full) := by
  cases hd with
  | free hfree =>
    rw [h.free_iff] at hfree
    cases he with
    | free _ => exact Or.inl ⟨rfl, rfl⟩
    | replace hv => exact absurd hfree hv.not_free
    | full hf _ => exact absurd hfree hf
  | replace hv =>
    obtain ⟨r, hr, rfl⟩ := h.mem_left hv.mem
    have hw := h.victim hr hv
    cases he with
    | free hf => exact absurd hf hw.not_free
    | replace hw' => exact Or.inr (Or.inl ⟨r, hr, rfl, by rw [hw'.unique hage hw]⟩)
    | full _ hnone => exact absurd hw (hnone _)
  | full hfree hnone =>
    cases he with
    | free hf => exact absurd (h.free_iff.mpr hf) hfree
    | replace hw =>
      obtain ⟨r, hr, rfl⟩ := h.mem_right hw.mem
      exact absurd ((h.victim_iff hr).mpr hw) (hnone _)
    | full _ _ => exact Or.inr (Or.inr ⟨rfl, rfl⟩)

end Rows

/-- A newcomer from `x` replaced `a`, an entry of another source, in a table of `cap`. -/
structure Fair (v : View α ι) (cap : ℕ) (l l' : List α) (x : ι) (a : α) : Prop where
  full : l.length = cap
  most : ∀ y, held v l y ≤ held v l (v.source a)
  more : held v l x + 2 ≤ held v l (v.source a)
  oldest : ∀ b ∈ l, held v l (v.source b) = held v l (v.source a) → v.age a ≤ v.age b
  stays : 1 ≤ held v l' (v.source a)
  least : held v l' x ≤ held v l' (v.source a)

theorem held_le_of_forall {n : ℕ} (h : ∀ b ∈ l, held v l (v.source b) ≤ n) (y : ι) :
    held v l y ≤ n := by
  by_cases hy : held v l y = 0
  · omega
  · obtain ⟨b, hb, hsource⟩ := List.countP_pos_iff.mp (Nat.pos_of_ne_zero hy)
    rw [← of_decide_eq_true hsource]
    exact h b hb

theorem Victim.fair (h : Victim v cap share l x a) (hne : v.source a ≠ x) (hcap : l.length ≤ cap)
    {rest l' : List α} (hl : l.Perm (a :: rest)) (hl' : l'.Perm (b :: rest)) (hb : v.source b = x) :
    Fair v cap l l' x a := by
  cases h with
  | own _ _ hsource => exact absurd hsource hne
  | other _ _ hfull hmore hmost hold =>
    have hbefore : ∀ y, held v l y = held v rest y + if v.source a = y then 1 else 0 := fun y => by
      rw [held_perm hl, held_cons]
    have hafter : ∀ y, held v l' y = held v rest y + if v.source b = y then 1 else 0 := fun y => by
      rw [held_perm hl', held_cons]
    have hx := hbefore x
    have hy := hbefore (v.source a)
    have hx' := hafter x
    have hy' := hafter (v.source a)
    rw [if_neg hne] at hx
    rw [if_pos rfl] at hy
    rw [if_pos hb] at hx'
    rw [if_neg (by rw [hb]; exact hne.symm)] at hy'
    refine ⟨Nat.le_antisymm hcap hfull, held_le_of_forall hmost, hmore, hold, ?_, ?_⟩ <;> omega

/-- A newcomer that is put into a finite map in the place of its victim. -/
theorem Victim.fair_set {κ ν : Type*} [DecidableEq κ] {v : View (κ × ν) ι} {t : Assoc.Table κ ν}
    {key new : κ} {old : ν} (h : Victim v cap share t.entries x (key, old)) (val : ν)
    (hne : v.source (key, old) ≠ x) (hcap : t.size ≤ cap) (hnew : t.lookup new = none)
    (hx : v.source (new, val) = x) :
    Fair v cap t.entries ((t.remove key).set new val).entries x (key, old) := by
  have hold : t.lookup key = some old := Assoc.Table.lookup_eq_some_iff.mpr h.mem
  have hnone : (t.remove key).lookup new = none := by
    rw [Assoc.Table.lookup_remove, hnew, ite_self]
  have hset : ((t.remove key).set new val).entries = (new, val) :: (t.remove key).entries :=
    congrArg _ (Assoc.Table.remove_of_lookup_none hnone)
  exact h.fair hne hcap (Assoc.Table.perm_of_lookup hold) (List.Perm.of_eq hset) hx

end Sukkula.Share
