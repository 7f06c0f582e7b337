import Mathlib.Data.Char
import Mathlib.Data.List.Lex
import Sukkula.Library.Json

/-! # Reading a key once

The settings file is read into values whose objects are maps, and refused when
some object has a key twice. The map keeps its entries ordered by key, so the
order of the text is lost, and nothing else is.
-/

namespace Sukkula.Config

open Str Json

mutual

/-- A JSON value in which no object has a key twice, its objects as maps ordered by key. -/
def unique : Json → Option Json
  | .null => some .null
  | .bool b => some (.bool b)
  | .number n => some (.number n)
  | .string s => some (.string s)
  | .array items => (uniqueSeq items).map .array
  | .object entries => (uniqueMap [] entries).map .object

def uniqueSeq : List Json → Option (List Json)
  | [] => some []
  | v :: items =>
    match unique v with
    | none => none
    | some w => (uniqueSeq items).map (w :: ·)

def uniqueMap (out : List (Str × Json)) : List (Str × Json) → Option (List (Str × Json))
  | [] => some out
  | (key, v) :: entries =>
    if key ∈ out.map Prod.fst then none
    else
      match unique v with
      | none => none
      | some w => uniqueMap (Assoc.insert (key, w) out) entries

end

section Unique

variable {v w : Json} {items ws : List Json} {out entries m : List (Str × Json)}

theorem uniqueSeq_eq_none : uniqueSeq items = none ↔ ∃ v ∈ items, unique v = none := by
  induction items with
  | nil => simp [uniqueSeq]
  | cons v items ih =>
    cases hv : unique v with
    | none => simp [uniqueSeq, hv]
    | some w => simp [uniqueSeq, hv, ih]

theorem mem_keys_insert {k : Str} {e : Str × Json} :
    k ∈ (Assoc.insert e out).map Prod.fst ↔ k = e.1 ∨ k ∈ out.map Prod.fst := by
  rw [(Assoc.insert_perm.map Prod.fst).mem_iff]
  simp

theorem uniqueMap_eq_none : uniqueMap out entries = none ↔
    (∃ e ∈ entries, e.1 ∈ out.map Prod.fst) ∨ ¬ (entries.map Prod.fst).Nodup ∨
      ∃ e ∈ entries, unique e.2 = none := by
  induction entries generalizing out with
  | nil => simp [uniqueMap]
  | cons e entries ih =>
    obtain ⟨k, v⟩ := e
    unfold uniqueMap
    by_cases hk : k ∈ out.map Prod.fst
    · rw [if_pos hk]
      exact iff_of_true rfl (Or.inl ⟨(k, v), by simp, hk⟩)
    · rw [if_neg hk]
      cases hv : unique v with
      | none => exact iff_of_true rfl (Or.inr (Or.inr ⟨(k, v), by simp, hv⟩))
      | some w =>
        simp only [ih, mem_keys_insert, List.exists_mem_cons_iff, List.map_cons,
          List.nodup_cons, hv, hk, false_or, reduceCtorEq]
        rw [not_and_or, not_not]
        constructor
        · rintro (⟨e, he, hek | hout⟩ | hdup | hnone)
          · exact Or.inr (Or.inl (Or.inl (List.mem_map.mpr ⟨e, he, hek⟩)))
          · exact Or.inl ⟨e, he, hout⟩
          · exact Or.inr (Or.inl (Or.inr hdup))
          · exact Or.inr (Or.inr hnone)
        · rintro (⟨e, he, hout⟩ | (hmem | hdup) | hnone)
          · exact Or.inl ⟨e, he, Or.inr hout⟩
          · obtain ⟨e, he, hek⟩ := List.mem_map.mp hmem
            exact Or.inl ⟨e, he, Or.inl hek⟩
          · exact Or.inr (Or.inl hdup)
          · exact Or.inr (Or.inr hnone)

/-- A value is refused exactly when some object in it has a key twice. -/
theorem unique_eq_none : unique v = none ↔ v.Repeats := by
  induction v using Json.ind with
  | null => exact iff_of_false (by simp [unique]) (Leaf.not_repeats trivial)
  | bool b => exact iff_of_false (by simp [unique]) (Leaf.not_repeats trivial)
  | number n => exact iff_of_false (by simp [unique]) (Leaf.not_repeats trivial)
  | string s => exact iff_of_false (by simp [unique]) (Leaf.not_repeats trivial)
  | array items ih =>
    rw [repeats_array, unique, Option.map_eq_none_iff, uniqueSeq_eq_none]
    exact exists_congr fun v => and_congr_right fun hv => ih v hv
  | object entries ih =>
    rw [repeats_object, unique, Option.map_eq_none_iff, uniqueMap_eq_none]
    simp only [List.map_nil, List.not_mem_nil, and_false, exists_false, false_or]
    exact or_congr_right (exists_congr fun e => and_congr_right fun he => ih e he)

def uniqueEntry (e : Str × Json) : Str × Json := (e.1, (unique e.2).getD .null)

theorem uniqueSeq_eq_some (h : uniqueSeq items = some ws) :
    ws = items.map fun v => (unique v).getD .null := by
  induction items generalizing ws with
  | nil => exact (Option.some.inj h).symm
  | cons v items ih =>
    unfold uniqueSeq at h
    cases hv : unique v with
    | none => simp [hv] at h
    | some w =>
      simp only [hv] at h
      obtain ⟨ws', hws, rfl⟩ := Option.map_eq_some_iff.mp h
      simp [hv, ih hws]

theorem uniqueMap_eq_some (h : uniqueMap out entries = some m) (hout : out.Pairwise Assoc.KeyLE) :
    m.Perm (out ++ entries.map uniqueEntry) ∧ m.Pairwise Assoc.KeyLE := by
  induction entries generalizing out with
  | nil =>
    obtain rfl := Option.some.inj h
    exact ⟨by simp, hout⟩
  | cons e entries ih =>
    obtain ⟨k, v⟩ := e
    unfold uniqueMap at h
    split_ifs at h with hk
    cases hv : unique v with
    | none => simp [hv] at h
    | some w =>
      simp only [hv] at h
      obtain ⟨hperm, hsort⟩ := ih h (Assoc.pairwise_insert hout)
      refine ⟨hperm.trans ?_, hsort⟩
      simp only [List.map_cons, uniqueEntry, hv, Option.getD_some]
      exact (Assoc.insert_perm.append_right _).trans List.perm_middle.symm

theorem reordered_of_unique (h : unique v = some w) : Reordered v w := by
  induction v using Json.ind generalizing w with
  | null => exact Option.some.inj h ▸ .refl _
  | bool b => exact Option.some.inj h ▸ .refl _
  | number n => exact Option.some.inj h ▸ .refl _
  | string s => exact Option.some.inj h ▸ .refl _
  | array items ih =>
    obtain ⟨ws, hws, rfl⟩ := Option.map_eq_some_iff.mp h
    have hsome : ∀ v ∈ items, unique v ≠ none := fun v hv hnone => by
      simp [uniqueSeq_eq_none.mpr ⟨v, hv, hnone⟩] at hws
    rw [uniqueSeq_eq_some hws]
    refine Reordered.array_map (fun v hv => ?_) []
    obtain ⟨w, hw⟩ := Option.ne_none_iff_exists'.mp (hsome v hv)
    simpa [hw] using ih v hv hw
  | object entries ih =>
    obtain ⟨m, hm, rfl⟩ := Option.map_eq_some_iff.mp h
    have hsome : ∀ e ∈ entries, unique e.2 ≠ none := fun e he hnone => by
      simp [uniqueMap_eq_none.mpr (Or.inr (Or.inr ⟨e, he, hnone⟩))] at hm
    refine (Reordered.object_map (f := fun v => (unique v).getD .null) (fun e he => ?_) []).trans
      (.perm (uniqueMap_eq_some hm .nil).1.symm)
    obtain ⟨w, hw⟩ := Option.ne_none_iff_exists'.mp (hsome e he)
    simpa [hw] using ih e he hw

theorem keys_uniqueEntry : (entries.map uniqueEntry).map Prod.fst = entries.map Prod.fst := by
  rw [List.map_map]
  rfl

theorem uniqueMap_perm {es fs : List (Str × Json)} (h : es.Perm fs) :
    uniqueMap [] es = uniqueMap [] fs := by
  cases hes : uniqueMap [] es with
  | none =>
    rw [uniqueMap_eq_none] at hes
    refine (uniqueMap_eq_none.mpr ?_).symm
    simpa only [h.mem_iff, (h.map Prod.fst).nodup_iff] using hes
  | some m =>
    cases hfs : uniqueMap [] fs with
    | none =>
      have hnone : uniqueMap [] es = none := by
        rw [uniqueMap_eq_none] at hfs ⊢
        simpa only [h.mem_iff, (h.map Prod.fst).nodup_iff] using hfs
      rw [hes] at hnone
      cases hnone
    | some m' =>
      obtain ⟨hp, hsort⟩ := uniqueMap_eq_some hes .nil
      obtain ⟨hp', hsort'⟩ := uniqueMap_eq_some hfs .nil
      have hn : (m.map Prod.fst).Nodup := by
        rw [(hp.map _).nodup_iff, List.nil_append, keys_uniqueEntry]
        by_contra hdup
        simp [uniqueMap_eq_none.mpr (Or.inr (Or.inl hdup))] at hes
      rw [Assoc.eq_of_perm hsort hsort' hn (hp.trans ((h.map uniqueEntry).trans hp'.symm))]

theorem uniqueSeq_congr (pre post : List Json) (h : unique v = unique w) :
    uniqueSeq (pre ++ v :: post) = uniqueSeq (pre ++ w :: post) := by
  induction pre with
  | nil => simp only [List.nil_append, uniqueSeq, h]
  | cons u pre ih => simp only [List.cons_append, uniqueSeq, ih]

theorem uniqueMap_congr (pre post : List (Str × Json)) (k : Str) (h : unique v = unique w) :
    uniqueMap out (pre ++ (k, v) :: post) = uniqueMap out (pre ++ (k, w) :: post) := by
  induction pre generalizing out with
  | nil => simp only [List.nil_append, uniqueMap, h]
  | cons e pre ih => simp only [List.cons_append, uniqueMap, ih]

theorem unique_reordered (h : Reordered v w) : unique v = unique w := by
  induction h with
  | refl v => rfl
  | trans _ _ ih ih' => exact ih.trans ih'
  | perm h => simp only [unique, uniqueMap_perm h]
  | item pre post _ ih => simp only [unique, uniqueSeq_congr pre post ih]
  | value pre post k _ ih => simp only [unique, uniqueMap_congr pre post k ih]

theorem unique_object (h : ¬ Repeats (.object entries)) :
    ∃ m, unique (.object entries) = some (.object m) ∧ (m.map Prod.fst).Nodup ∧
    m.Perm (entries.map uniqueEntry) := by
  cases hm : uniqueMap [] entries with
  | none => exact absurd (unique_eq_none.mp (by simp [unique, hm])) h
  | some m =>
    obtain ⟨hp, -⟩ := uniqueMap_eq_some hm .nil
    refine ⟨m, by simp [unique, hm], ?_, hp⟩
    rw [(hp.map _).nodup_iff, List.nil_append, keys_uniqueEntry]
    by_contra hdup
    exact h (repeats_object.mpr (Or.inl hdup))

end Unique

end Sukkula.Config
