import Mathlib.Data.List.Nodup
import Mathlib.Data.List.Sort

/-! # Maps as association lists

A finite map is a list of key and value pairs with no key twice. Removing a key
is a filter, so the order of the other entries never matters to a proof. A map
ordered by key is kept sorted by its insertions, and is then determined by the
entries it holds. A `Table` carries the proof that no key is there twice.
-/

namespace Sukkula.Assoc

variable {κ ν : Type*} {l : List (κ × ν)}

theorem nodup_keys_filter (hn : (l.map Prod.fst).Nodup) (p : κ × ν → Bool) :
    ((l.filter p).map Prod.fst).Nodup :=
  (List.filter_sublist.map _).nodup hn

section Lawful

variable [BEq κ] [LawfulBEq κ] {k : κ} {v : ν}

theorem mem_of_lookup (h : l.lookup k = some v) : (k, v) ∈ l := by
  obtain ⟨l₁, l₂, rfl, -⟩ := List.lookup_eq_some_iff.mp h
  simp

theorem lookup_eq_some (hn : (l.map Prod.fst).Nodup) : l.lookup k = some v ↔ (k, v) ∈ l := by
  refine ⟨mem_of_lookup, fun hm => ?_⟩
  obtain ⟨l₁, l₂, rfl⟩ := List.append_of_mem hm
  refine List.lookup_eq_some_iff.mpr ⟨l₁, l₂, rfl, fun p hp => ?_⟩
  rw [List.map_append, List.map_cons, List.nodup_append] at hn
  have hne := hn.2.2 _ (List.mem_map_of_mem hp) _ List.mem_cons_self
  simpa using hne.symm

theorem lookup_eq_none : l.lookup k = none ↔ ∀ v, (k, v) ∉ l := by
  rw [List.lookup_eq_none_iff]
  constructor
  · intro h v hm
    simpa using h _ hm
  · rintro h ⟨k', v⟩ hm
    simpa using fun he : k = k' => h v (he ▸ hm)

theorem value_unique (hn : (l.map Prod.fst).Nodup) {v' : ν} (h : (k, v) ∈ l)
    (h' : (k, v') ∈ l) : v = v' :=
  Option.some.inj (((lookup_eq_some hn).mpr h).symm.trans ((lookup_eq_some hn).mpr h'))

end Lawful

variable [DecidableEq κ] {k : κ} {v : ν}

theorem lookup_cons {k' : κ} :
    ((k, v) :: l).lookup k' = if k' = k then some v else l.lookup k' := by
  by_cases h : k' = k
  · simp [h]
  · have hb : (k' == k) = false := by simpa using h
    simp [List.lookup_cons, hb, h]

theorem lookup_filter_ne {k' : κ} :
    (l.filter (·.1 ≠ k)).lookup k' = if k' = k then none else l.lookup k' := by
  induction l with
  | nil => simp
  | cons e l ih =>
    obtain ⟨a, b⟩ := e
    rw [lookup_cons]
    by_cases ha : a = k
    · subst ha
      rw [List.filter_cons_of_neg (by simp), ih]
      split_ifs <;> rfl
    · rw [List.filter_cons_of_pos (by simpa using ha), lookup_cons, ih]
      by_cases hk : k' = a
      · simp [hk, ha]
      · simp [hk]

section Ordered

variable {ι : Type*} [LinearOrder ι] {m m' : List (ι × ν)} {e : ι × ν}

/-- The order of the entries of a map that is ordered by key. -/
def KeyLE (e f : ι × ν) : Prop := e.1 ≤ f.1

instance : DecidableRel (KeyLE : ι × ν → ι × ν → Prop) :=
  fun e f => inferInstanceAs (Decidable (e.1 ≤ f.1))

instance : Std.Total (KeyLE : ι × ν → ι × ν → Prop) := ⟨fun e f => le_total e.1 f.1⟩

instance : IsTrans (ι × ν) KeyLE := ⟨fun _ _ _ h h' => le_trans h h'⟩

/-- An entry put into an ordered map that has no such key. -/
def insert (e : ι × ν) (m : List (ι × ν)) : List (ι × ν) := m.orderedInsert KeyLE e

theorem insert_perm : (insert e m).Perm (e :: m) := List.perm_orderedInsert KeyLE e m

theorem pairwise_insert (h : m.Pairwise KeyLE) : (insert e m).Pairwise KeyLE :=
  List.Pairwise.orderedInsert e m h

theorem eq_of_perm (hm : m.Pairwise KeyLE) (hm' : m'.Pairwise KeyLE) (hn : (m.map Prod.fst).Nodup)
    (h : m.Perm m') : m = m' := by
  refine h.eq_of_pairwise ?_ hm hm'
  rintro ⟨k, v⟩ ⟨k', v'⟩ he hf hle hge
  obtain rfl : k = k' := le_antisymm hle hge
  rw [value_unique hn he (h.mem_iff.mpr hf)]

end Ordered

structure Table (κ ν : Type*) where
  entries : List (κ × ν)
  nodup : (entries.map Prod.fst).Nodup

namespace Table

variable {t : Table κ ν} {k' : κ}

def lookup (t : Table κ ν) (k : κ) : Option ν := t.entries.lookup k

def remove (t : Table κ ν) (k : κ) : Table κ ν :=
  ⟨t.entries.filter (·.1 ≠ k), nodup_keys_filter t.nodup _⟩

theorem not_mem_remove : k ∉ (t.remove k).entries.map Prod.fst := by
  simp [remove]

/-- The entry for `k` is made, or replaced. -/
def set (t : Table κ ν) (k : κ) (v : ν) : Table κ ν :=
  ⟨(k, v) :: (t.remove k).entries, List.nodup_cons.mpr ⟨not_mem_remove, (t.remove k).nodup⟩⟩

@[simp] theorem lookup_remove : (t.remove k).lookup k' = if k' = k then none else t.lookup k' :=
  lookup_filter_ne

@[simp] theorem lookup_set : (t.set k v).lookup k' = if k' = k then some v else t.lookup k' := by
  refine lookup_cons.trans ?_
  split_ifs with h
  · rfl
  · exact lookup_remove.trans (if_neg h)

theorem mem_keys_iff : k ∈ t.entries.map Prod.fst ↔ t.lookup k ≠ none := by
  rw [Ne, lookup, lookup_eq_none]
  push Not
  simp

def empty : Table κ ν := ⟨[], List.nodup_nil⟩

@[simp] theorem lookup_empty : (empty : Table κ ν).lookup k = none := rfl

def size (t : Table κ ν) : ℕ := t.entries.length

theorem lookup_eq_some_iff : t.lookup k = some v ↔ (k, v) ∈ t.entries := lookup_eq_some t.nodup

theorem perm_of_lookup (h : t.lookup k = some v) :
    t.entries.Perm ((k, v) :: (t.remove k).entries) := by
  obtain ⟨l₁, l₂, hl⟩ := List.append_of_mem (lookup_eq_some_iff.mp h)
  have hn := t.nodup
  rw [hl, List.map_append, List.map_cons] at hn
  have hk : ∀ e ∈ l₁ ++ l₂, e.1 ≠ k := by
    have hnot := List.perm_middle.nodup_iff.mp hn
    rw [List.nodup_cons, ← List.map_append] at hnot
    rintro e he rfl
    have hmem : e.1 ∈ (l₁ ++ l₂).map Prod.fst := List.mem_map_of_mem he
    exact hnot.1 hmem
  have hkeep : (t.remove k).entries = l₁ ++ l₂ := by
    unfold remove
    simp only [hl]
    rw [List.filter_append, List.filter_cons_of_neg (by simp), ← List.filter_append]
    exact List.filter_eq_self.mpr fun e he => by simpa using hk e he
  rw [hkeep, hl]
  exact List.perm_middle

theorem remove_of_lookup_none (h : t.lookup k = none) : (t.remove k).entries = t.entries := by
  refine List.filter_eq_self.mpr ?_
  rintro ⟨k', v⟩ he
  have := lookup_eq_none.mp h v
  simpa using fun hk : k' = k => this (hk ▸ he)

/-- The entries whose values meet `p`. -/
def count (t : Table κ ν) (p : ν → Bool) : ℕ := t.entries.countP (p ·.2)

theorem count_of_lookup (h : t.lookup k = some v) (p : ν → Bool) :
    t.count p = (t.remove k).count p + if p v then 1 else 0 := by
  rw [count, (perm_of_lookup h).countP_eq, List.countP_cons, count]

theorem count_of_lookup_none (h : t.lookup k = none) (p : ν → Bool) :
    (t.remove k).count p = t.count p := by
  rw [count, remove_of_lookup_none h, count]

theorem count_set (t : Table κ ν) (k : κ) (v : ν) (p : ν → Bool) :
    (t.set k v).count p = (t.remove k).count p + if p v then 1 else 0 := List.countP_cons

theorem size_of_lookup (h : t.lookup k = some v) : t.size = (t.remove k).size + 1 :=
  (perm_of_lookup h).length_eq

theorem size_remove_lt (h : t.lookup k ≠ none) : (t.remove k).size < t.size := by
  obtain ⟨v, hv⟩ := Option.ne_none_iff_exists'.mp h
  exact Nat.lt_of_lt_of_eq (Nat.lt_succ_self _) (size_of_lookup hv).symm

theorem size_remove_le : (t.remove k).size ≤ t.size := List.length_filter_le _ _

theorem size_set_le : (t.set k v).size ≤ t.size + 1 := Nat.succ_le_succ size_remove_le

theorem size_set_of_lookup (h : t.lookup k ≠ none) : (t.set k v).size ≤ t.size :=
  size_remove_lt h

def retain (t : Table κ ν) (p : ν → Bool) : Table κ ν :=
  ⟨t.entries.filter (p ·.2), nodup_keys_filter t.nodup _⟩

theorem lookup_retain {p : ν → Bool} :
    (t.retain p).lookup k = some v ↔ t.lookup k = some v ∧ p v := by
  rw [lookup_eq_some_iff, lookup_eq_some_iff]
  exact List.mem_filter

omit [DecidableEq κ] in
theorem size_retain_le {p : ν → Bool} : (t.retain p).size ≤ t.size := List.length_filter_le _ _

theorem retain_eq_self {p : ν → Bool} (h : t.size ≤ (t.retain p).size) (hv : t.lookup k = some v) :
    p v := by
  have heq : t.entries.filter (p ·.2) = t.entries :=
    List.filter_sublist.eq_of_length (Nat.le_antisymm size_retain_le h)
  have hmem := lookup_eq_some_iff.mp hv
  rw [← heq] at hmem
  exact (List.mem_filter.mp hmem).2

end Table

end Sukkula.Assoc
