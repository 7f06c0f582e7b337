import Sukkula.Config.Unique
import Sukkula.Library.Serde

/-! # The visitor of the settings file

`UniqueVisitor` looks for a key before it asks for its value. Any visitor that
makes a map of an object, and takes no key twice, reads what `unique` makes of the
text's tree; and where it reads something, plain parsing reads the same, but for
objects that begin with the key of a raw value.
-/

namespace Sukkula.Config

open Json Serde

variable {V : Visitor} {s : Source} {t v : Json} {items : List Source}
  {entries : List (Str × Source)} {closed : Bool} {raw : Str → Option Json}

def uniqueVisitor : Visitor where
  visitUnit := some .null
  visitBool b := some (.bool b)
  visitI64 v := some (integer v.toInt)
  visitU64 v := some (integer v.toNat)
  visitF64 bits := (fromF64 bits).map .number
  visitStr s := some (.string s)
  nextKey out key := key ∉ out.map Prod.fst
  nextValue out key v := some (Serde.insert out key v)

theorem insert_of_not_mem {out : List (Str × Json)} {key : Str} (h : key ∉ out.map Prod.fst) :
    Serde.insert out key v = Assoc.insert (key, v) out :=
  if_neg h

theorem once_uniqueVisitor : uniqueVisitor.Once where
  unit := rfl
  bool := rfl
  i64 := rfl
  u64 := rfl
  f64 _ := rfl
  str := rfl
  refuses hkey hnext := absurd hkey (of_decide_eq_true hnext)
  takes hkey := ⟨decide_eq_true hkey, fun _ => congrArg some (insert_of_not_mem hkey)⟩

theorem visitSeq_eq (ih : ∀ s ∈ items, visit V s = (visit tree s).bind unique) :
    visitSeq V items closed = (visitSeq tree items closed).bind uniqueSeq := by
  induction items with
  | nil => cases closed <;> rfl
  | cons s items ihs =>
    rw [List.forall_mem_cons] at ih
    rw [visitSeq, visitSeq, ih.1, ihs ih.2]
    cases visit tree s with
    | none => rfl
    | some t =>
      cases hu : unique t with
      | none =>
        cases visitSeq tree items closed <;> simp [uniqueSeq, hu]
      | some w =>
        cases visitSeq tree items closed <;> simp [uniqueSeq, hu]

theorem visitMap_eq (hV : V.Once) (ih : ∀ e ∈ entries, visit V e.2 = (visit tree e.2).bind unique)
    (out : List (Str × Json)) :
    visitMap V out entries closed = (visitMap tree [] entries closed).bind (uniqueMap out) := by
  induction entries generalizing out with
  | nil => cases closed <;> rfl
  | cons e entries ihs =>
    obtain ⟨key, s⟩ := e
    rw [List.forall_mem_cons] at ih
    rw [visitMap, visitMap_tree_cons, ih.1]
    cases visit tree s with
    | none =>
      split_ifs
      · rfl
      · rfl
    | some t =>
      by_cases hkey : key ∈ out.map Prod.fst
      · -- the key is refused, whether or not its value was read
        have hnone : ((visitMap tree [] entries closed).map ((key, t) :: ·)).bind (uniqueMap out) =
            none := by
          cases visitMap tree [] entries closed <;> simp [uniqueMap, hkey]
        simp only [Option.bind_some, hnone]
        split_ifs with hnext
        · cases unique t with
          | none => rfl
          | some w => simp only [hV.refuses hkey hnext]
        · rfl
      · obtain ⟨hnext, hvalue⟩ := hV.takes hkey
        rw [if_pos hnext]
        cases hu : unique t with
        | none => cases visitMap tree [] entries closed <;> simp [uniqueMap, hkey, hu]
        | some w =>
          simp only [Option.bind_some, hu, hvalue, ihs ih.2]
          cases visitMap tree [] entries closed <;> simp [uniqueMap, hkey, hu]

theorem visit_eq_unique (hV : V.Once) (hs : s.Finite) : visit V s = (visit tree s).bind unique := by
  induction s using Source.ind with
  | error => rfl
  | unit => exact hV.unit
  | bool b => exact congrFun hV.bool b
  | i64 v => exact congrFun hV.i64 v
  | u64 v => exact congrFun hV.u64 v
  | str s => exact congrFun hV.str s
  | f64 bits =>
    refine (hV.f64 (hs bits .self)).trans ?_
    change (fromF64 bits).map _ = ((fromF64 bits).map _).bind _
    cases fromF64 bits <;> rfl
  | seq items closed ih =>
    rw [visit, visit, visitSeq_eq fun s hin => ih s hin (Source.finite_seq.mp hs s hin)]
    cases visitSeq tree items closed <;> rfl
  | map entries closed ih =>
    rw [visit, visit, visitMap_eq hV fun e he => ih e he (Source.finite_map.mp hs e he)]
    cases visitMap tree [] entries closed <;> rfl

section Plain

theorem keys_of_tree {es : List (Str × Json)} (h : visitMap tree [] entries closed = some es) :
    es.map Prod.fst = entries.map Prod.fst := by
  induction entries generalizing es with
  | nil =>
    cases closed with
    | true => exact Option.some.inj h ▸ rfl
    | false => cases h
  | cons e entries ih =>
    obtain ⟨key, s⟩ := e
    rw [visitMap_tree_cons] at h
    obtain ⟨t, -, h⟩ := Option.bind_eq_some_iff.mp h
    obtain ⟨es', hes, rfl⟩ := Option.map_eq_some_iff.mp h
    rw [List.map_cons, List.map_cons, ih hes]

theorem visitSeq_tree_cons {ts : List Json} (h : visitSeq tree (s :: items) closed = some ts) :
    ∃ t ts', visit tree s = some t ∧ visitSeq tree items closed = some ts' ∧ ts = t :: ts' := by
  rw [visitSeq] at h
  cases hs : visit tree s with
  | none =>
    rw [hs] at h
    cases h
  | some t =>
    rw [hs] at h
    obtain ⟨ts', hts, rfl⟩ := Option.map_eq_some_iff.mp h
    exact ⟨t, ts', rfl, hts, rfl⟩

theorem uniqueSeq_cons {ts ws : List Json} (h : uniqueSeq (t :: ts) = some ws) :
    ∃ w ws', unique t = some w ∧ uniqueSeq ts = some ws' ∧ ws = w :: ws' := by
  rw [uniqueSeq] at h
  cases hu : unique t with
  | none =>
    rw [hu] at h
    cases h
  | some w =>
    rw [hu] at h
    obtain ⟨ws', hws, rfl⟩ := Option.map_eq_some_iff.mp h
    exact ⟨w, ws', rfl, hws, rfl⟩

/-- Plain parsing reads what `unique` does. -/
def Reads (raw : Str → Option Json) (s : Source) : Prop :=
  ∀ t v, visit tree s = some t → ¬ Marked t → unique t = some v → value raw s = some v

theorem valueSeq_of_unique {ts ws : List Json} (ih : ∀ s ∈ items, Reads raw s)
    (ht : visitSeq tree items closed = some ts) (hm : ∀ t ∈ ts, ¬ Marked t)
    (hu : uniqueSeq ts = some ws) : valueSeq raw items closed = some ws := by
  induction items generalizing ts ws with
  | nil =>
    cases closed with
    | true =>
      obtain rfl := Option.some.inj ht
      exact hu
    | false => cases ht
  | cons s items ihs =>
    obtain ⟨t, ts, hs, hts, rfl⟩ := visitSeq_tree_cons ht
    obtain ⟨w, ws, hw, hws, rfl⟩ := uniqueSeq_cons hu
    rw [List.forall_mem_cons] at ih hm
    rw [valueSeq, ih.1 t w hs hm.1 hw, ihs ih.2 hts hm.2 hws]
    rfl

theorem valueMap_of_unique {es out m : List (Str × Json)} (ih : ∀ e ∈ entries, Reads raw e.2)
    (ht : visitMap tree [] entries closed = some es) (hm : ∀ e ∈ es, ¬ Marked e.2)
    (hu : uniqueMap out es = some m) : valueMap raw out entries closed = some m := by
  induction entries generalizing es out with
  | nil =>
    cases closed with
    | true =>
      obtain rfl := Option.some.inj ht
      exact hu
    | false => cases ht
  | cons e entries ihs =>
    obtain ⟨key, s⟩ := e
    rw [visitMap_tree_cons] at ht
    obtain ⟨t, hs, ht⟩ := Option.bind_eq_some_iff.mp ht
    obtain ⟨es, hes, rfl⟩ := Option.map_eq_some_iff.mp ht
    rw [List.forall_mem_cons] at ih hm
    rw [uniqueMap] at hu
    split_ifs at hu with hkey
    cases hw : unique t with
    | none =>
      rw [hw] at hu
      cases hu
    | some w =>
      rw [hw] at hu
      rw [valueMap, ih.1 t w hs hm.1 hw]
      change valueMap raw (Serde.insert out key w) entries closed = some m
      rw [insert_of_not_mem hkey]
      exact ihs ih.2 hes hm.2 hu

/-- Where no object begins with the key of a raw value, plain parsing reads the same. -/
theorem reads_value (hs : s.Finite) : Reads raw s := by
  induction s using Source.ind with
  | error => exact fun t v ht => nomatch ht
  | unit | bool | i64 | u64 | str =>
    intro t v ht hm hu
    obtain rfl := Option.some.inj ht
    exact hu
  | f64 bits =>
    intro t v ht hm hu
    obtain ⟨n, hn, rfl⟩ := Option.map_eq_some_iff.mp ht
    rw [value, hn]
    exact hu
  | seq items closed ih =>
    intro t v ht hm hu
    obtain ⟨ts, hts, rfl⟩ := Option.map_eq_some_iff.mp ht
    obtain ⟨ws, hws, rfl⟩ := Option.map_eq_some_iff.mp hu
    have hitems : ∀ t ∈ ts, ¬ Marked t := fun t hin ht => hm (marked_array.mpr ⟨t, hin, ht⟩)
    rw [value, valueSeq_of_unique (fun s hin => ih s hin (Source.finite_seq.mp hs s hin))
      hts hitems hws]
    rfl
  | map entries closed ih =>
    intro t v ht hm hu
    obtain ⟨es, hes, rfl⟩ := Option.map_eq_some_iff.mp ht
    obtain ⟨m, hmap, rfl⟩ := Option.map_eq_some_iff.mp hu
    rw [marked_object, not_or] at hm
    have hvalues : ∀ e ∈ es, ¬ Marked e.2 := fun e he hmark => hm.2 ⟨e, he, hmark⟩
    have hfirst : entries.head?.map Prod.fst ≠ some rawValueKey := by
      rw [← List.head?_map, ← keys_of_tree hes, List.head?_map]
      exact hm.1
    rw [value, if_neg hfirst, valueMap_of_unique
      (fun e he => ih e he (Source.finite_map.mp hs e he)) hes hvalues hmap]
    rfl

theorem exists_visitSeq_tree {ws : List Json}
    (ih : ∀ s ∈ items, ∀ v, value raw s = some v → ∃ t, visit tree s = some t)
    (h : valueSeq raw items closed = some ws) : ∃ ts, visitSeq tree items closed = some ts := by
  induction items generalizing ws with
  | nil =>
    cases closed with
    | true => exact ⟨[], rfl⟩
    | false => cases h
  | cons s items ihs =>
    rw [List.forall_mem_cons] at ih
    rw [valueSeq] at h
    cases hv : value raw s with
    | none =>
      rw [hv] at h
      cases h
    | some v =>
      rw [hv] at h
      obtain ⟨ws, hws, rfl⟩ := Option.map_eq_some_iff.mp h
      obtain ⟨t, ht⟩ := ih.1 v hv
      obtain ⟨ts, hts⟩ := ihs ih.2 hws
      exact ⟨t :: ts, by rw [visitSeq, ht, hts]; rfl⟩

theorem exists_visitMap_tree {out m : List (Str × Json)}
    (ih : ∀ e ∈ entries, ∀ v, value raw e.2 = some v → ∃ t, visit tree e.2 = some t)
    (h : valueMap raw out entries closed = some m) :
    ∃ es, visitMap tree [] entries closed = some es := by
  induction entries generalizing out with
  | nil =>
    cases closed with
    | true => exact ⟨[], rfl⟩
    | false => cases h
  | cons e entries ihs =>
    obtain ⟨key, s⟩ := e
    rw [List.forall_mem_cons] at ih
    rw [valueMap] at h
    cases hv : value raw s with
    | none =>
      rw [hv] at h
      cases h
    | some v =>
      rw [hv] at h
      obtain ⟨t, ht⟩ := ih.1 v hv
      obtain ⟨es, hes⟩ := ihs ih.2 h
      exact ⟨(key, t) :: es, by rw [visitMap_tree_cons, ht, hes]; rfl⟩

theorem exists_tree (hs : s.Finite) (h : value raw s = some v) : ∃ t, visit tree s = some t := by
  induction s using Source.ind generalizing v with
  | error => cases h
  | unit | bool | i64 | u64 | str => exact ⟨_, rfl⟩
  | f64 bits => exact ⟨_, congrArg (Option.map _) (dif_pos (hs bits .self))⟩
  | seq items closed ih =>
    obtain ⟨ws, hws, -⟩ := Option.map_eq_some_iff.mp h
    obtain ⟨ts, hts⟩ :=
      exists_visitSeq_tree (fun s hin _ => ih s hin (Source.finite_seq.mp hs s hin)) hws
    exact ⟨.array ts, by rw [visit, hts]; rfl⟩
  | map entries closed ih =>
    rw [value] at h
    split_ifs at h
    · unfold rawValue at h
      split at h
      · exact ⟨_, rfl⟩
      · cases h
    · obtain ⟨m, hm, -⟩ := Option.map_eq_some_iff.mp h
      obtain ⟨es, hes⟩ :=
        exists_visitMap_tree (fun e he _ => ih e he (Source.finite_map.mp hs e he)) hm
      exact ⟨.object es, by rw [visit, hes]; rfl⟩

end Plain

section Document

variable {d : Document}

theorem fromStr_eq_unique (hV : V.Once) (hd : d.value.Finite) :
    fromStr V d = (fromStr tree d).bind unique := by
  unfold fromStr
  split_ifs
  · exact visit_eq_unique hV hd
  · rfl

theorem plain_of_unique (hd : d.value.Finite) (ht : fromStr tree d = some t) (hm : ¬ Marked t)
    (hu : unique t = some v) : plain raw d = some v := by
  unfold fromStr at ht
  unfold plain
  split_ifs at ht ⊢
  exact reads_value hd t v ht hm hu

theorem plain_eq_none (hd : d.value.Finite) (ht : fromStr tree d = none) : plain raw d = none := by
  unfold fromStr at ht
  unfold plain
  split_ifs at ht ⊢
  · by_contra hne
    obtain ⟨v, hv⟩ := Option.ne_none_iff_exists'.mp hne
    obtain ⟨t, h⟩ := exists_tree hd hv
    rw [h] at ht
    cases ht
  · rfl

end Document

end Sukkula.Config
