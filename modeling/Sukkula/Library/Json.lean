import Mathlib.Data.List.Perm.Basic
import Sukkula.Library.Assoc
import Sukkula.Library.Str

/-! # JSON values and derived readers

A JSON text as a tree: the entries of an object are a list, in the order of the
text and with a repeated key where the text has one. A struct is read from an
object by field name or from an array by position; fields left out have a
default, others are refused. Such a reader takes no text with a repeated key,
and does not see the order of the entries.
-/

namespace Sukkula

/-- A number of the text: an integer, or a finite double. -/
inductive Number
  | integer (i : ℤ)
  | float (bits : { bits : BitVec 64 // bits.extractLsb 62 52 ≠ 0x7FF#11 })
  deriving DecidableEq

inductive Json
  | null
  | bool (b : Bool)
  | number (n : Number)
  | string (s : Str)
  | array (items : List Json)
  | object (entries : List (Str × Json))

namespace Json

variable {v w : Json} {items : List Json} {entries : List (Str × Json)}

theorem ind {P : Json → Prop} (null : P .null) (bool : ∀ b, P (.bool b))
    (number : ∀ n, P (.number n)) (string : ∀ s, P (.string s))
    (array : ∀ items, (∀ v ∈ items, P v) → P (.array items))
    (object : ∀ entries, (∀ e ∈ entries, P e.2) → P (.object entries)) (v : Json) : P v :=
  @Json.rec P (fun items => ∀ v ∈ items, P v) (fun entries => ∀ e ∈ entries, P e.2) (fun e => P e.2)
    null bool number string array object (by simp)
    (fun _ _ hv hs => List.forall_mem_cons.mpr ⟨hv, hs⟩) (by simp)
    (fun _ _ he hs => List.forall_mem_cons.mpr ⟨he, hs⟩) (fun _ _ hv => hv) v

inductive Within (v : Json) : Json → Prop
  | self : Within v v
  | item {items : List Json} {w : Json} (hw : w ∈ items) (h : Within v w) : Within v (.array items)
  | value {entries : List (Str × Json)} {e : Str × Json} (he : e ∈ entries) (h : Within v e.2) :
      Within v (.object entries)

/-- Some object, at any depth, has a key twice. -/
def Repeats (v : Json) : Prop :=
  ∃ entries, Within (.object entries) v ∧ ¬ (entries.map Prod.fst).Nodup

theorem within_array {P : List (Str × Json) → Prop} :
    (∃ es, Within (.object es) (.array items) ∧ P es) ↔ ∃ v ∈ items, ∃ es, Within (.object es) v ∧
    P es := by
  constructor
  · rintro ⟨es, hin, hP⟩
    cases hin with
    | item hv h => exact ⟨_, hv, es, h, hP⟩
  · rintro ⟨v, hv, es, h, hP⟩
    exact ⟨es, .item hv h, hP⟩

theorem within_object {P : List (Str × Json) → Prop} :
    (∃ es, Within (.object es) (.object entries) ∧ P es) ↔
      P entries ∨ ∃ e ∈ entries, ∃ es, Within (.object es) e.2 ∧ P es := by
  constructor
  · rintro ⟨es, hin, hP⟩
    cases hin with
    | self => exact Or.inl hP
    | value he h => exact Or.inr ⟨_, he, es, h, hP⟩
  · rintro (hP | ⟨e, he, es, h, hP⟩)
    · exact ⟨entries, .self, hP⟩
    · exact ⟨es, .value he h, hP⟩

theorem repeats_array : Repeats (.array items) ↔ ∃ v ∈ items, Repeats v := within_array

theorem repeats_object :
    Repeats (.object entries) ↔ ¬ (entries.map Prod.fst).Nodup ∨ ∃ e ∈ entries, Repeats e.2 :=
  within_object

def Leaf : Json → Prop
  | .array _ | .object _ => False
  | _ => True

theorem Leaf.not_within (h : v.Leaf) : ¬ Within (.object entries) v := by
  intro hin
  cases hin <;> exact h

theorem Leaf.not_repeats (h : v.Leaf) : ¬ v.Repeats := fun ⟨_, hin, _⟩ => h.not_within hin

/-- The same up to the order of entries, at any depth. -/
inductive Reordered : Json → Json → Prop
  | refl (v : Json) : Reordered v v
  | trans {u v w : Json} (h : Reordered u v) (h' : Reordered v w) : Reordered u w
  | perm {es fs : List (Str × Json)} (h : es.Perm fs) : Reordered (.object es) (.object fs)
  | item (pre post : List Json) {v w : Json} (h : Reordered v w) :
      Reordered (.array (pre ++ v :: post)) (.array (pre ++ w :: post))
  | value (pre post : List (Str × Json)) (k : Str) {v w : Json} (h : Reordered v w) :
      Reordered (.object (pre ++ (k, v) :: post)) (.object (pre ++ (k, w) :: post))

/-- The value given for each field of a struct, if no other value is given. -/
def fields (names : List Str) : Json → Option (Str → Option Json)
  | .object entries =>
    if (entries.map Prod.fst).Nodup ∧ ∀ e ∈ entries, e.1 ∈ names then some fun n => entries.lookup n
    else none
  | .array items =>
    if items.length ≤ names.length then some fun n => (names.zip items).lookup n else none
  | _ => none

/-- The value given for each field of a struct that ignores what else is given. -/
def openFields (names : List Str) : Json → Option (Str → Option Json)
  | .object entries =>
    let known := entries.filter fun e => e.1 ∈ names
    if (known.map Prod.fst).Nodup then some fun n => known.lookup n else none
  | .array items =>
    if items.length ≤ names.length then some fun n => (names.zip items).lookup n else none
  | _ => none

/-- The same of a struct without defaults: an array gives all of its fields. -/
def allFields (names : List Str) : Json → Option (Str → Option Json)
  | .array items =>
    if items.length = names.length then openFields names (.array items) else none
  | v => openFields names v

def field {α : Type} (get : Str → Option Json) (name : Str) (read : Json → Option α) (default : α) :
    Option α :=
  match get name with
  | none => some default
  | some v => read v

theorem field_of_none {α : Type} {get : Str → Option Json} {name : Str}
    {read : Json → Option α} {default : α} (h : get name = none) :
    field get name read default = some default := by
  rw [field, h]

theorem field_of_some {α : Type} {get : Str → Option Json} {name : Str}
    {read : Json → Option α} {default : α} {v : Json} (h : get name = some v) :
    field get name read default = read v := by
  rw [field, h]

/-- The entries of a struct that leaves some of its fields out. -/
def given (entries : List (Str × Option Json)) : List (Str × Json) :=
  entries.filterMap fun e => e.2.map (e.1, ·)

def readBool : Json → Option Bool
  | .bool b => some b
  | _ => none

def readString : Json → Option Str
  | .string s => some s
  | _ => none

def integer (i : ℤ) : Json := .number (.integer i)

def readI64 : Json → Option ℤ
  | .number (.integer i) => if -2 ^ 63 ≤ i ∧ i < 2 ^ 63 then some i else none
  | _ => none

def readList {α : Type} (read : Json → Option α) : Json → Option (List α)
  | .array items => items.mapM read
  | _ => none

def readOption {α : Type} (read : Json → Option α) : Json → Option (Option α)
  | .null => some none
  | v => (read v).map some

/-- A variant without data: its name, or an object with the name and `null`. -/
def readVariant {α : Type} (variants : List (Str × α)) : Json → Option α
  | .string s => variants.lookup s
  | .object [(s, .null)] => variants.lookup s
  | _ => none

/-- A reader that does not see the order of entries, and takes none that repeat. -/
structure Regular {α : Type} (read : Json → Option α) : Prop where
  reordered : ∀ {v w}, Reordered v w → read v = read w
  once : ∀ {v a}, read v = some a → ¬ v.Repeats

theorem Reordered.leaf_iff (h : Reordered v w) : v.Leaf ↔ w.Leaf := by
  induction h with
  | refl v => rfl
  | trans _ _ ih ih' => exact ih.trans ih'
  | perm h => rfl
  | item pre post h => rfl
  | value pre post k h => rfl

theorem Reordered.eq_of_leaf (h : Reordered v w) (hv : v.Leaf) : v = w := by
  induction h with
  | refl v => rfl
  | trans h _ ih ih' => exact (ih hv).trans (ih' (h.leaf_iff.mp hv))
  | perm h => exact hv.elim
  | item pre post h => exact hv.elim
  | value pre post k h => exact hv.elim

theorem Reordered.array_map {f : Json → Json} (h : ∀ v ∈ items, Reordered v (f v))
    (pre : List Json) : Reordered (.array (pre ++ items)) (.array (pre ++ items.map f)) := by
  induction items generalizing pre with
  | nil => exact .refl _
  | cons v items ih =>
    rw [List.forall_mem_cons] at h
    have htail := ih h.2 (pre ++ [f v])
    rw [List.append_assoc, List.append_assoc] at htail
    exact (Reordered.item pre items h.1).trans htail

theorem Reordered.object_map {f : Json → Json} (h : ∀ e ∈ entries, Reordered e.2 (f e.2))
    (pre : List (Str × Json)) :
    Reordered (.object (pre ++ entries)) (.object (pre ++ entries.map fun e => (e.1, f e.2))) := by
  induction entries generalizing pre with
  | nil => exact .refl _
  | cons e entries ih =>
    rw [List.forall_mem_cons] at h
    have htail := ih h.2 (pre ++ [(e.1, f e.2)])
    rw [List.append_assoc, List.append_assoc] at htail
    exact (Reordered.value pre entries e.1 h.1).trans htail

theorem rel_refl : ∀ v : Option Json, Option.Rel Reordered v v
  | none => .none
  | some v => .some (.refl v)

theorem lookup_value_rel (pre post : List (Str × Json)) (k n : Str) (h : Reordered v w) :
    Option.Rel Reordered ((pre ++ (k, v) :: post).lookup n) ((pre ++ (k, w) :: post).lookup n) := by
  induction pre with
  | nil =>
    simp only [List.nil_append, List.lookup_cons]
    cases n == k with
    | true => exact .some h
    | false => exact rel_refl _
  | cons e pre ih =>
    obtain ⟨k', u⟩ := e
    simp only [List.cons_append, List.lookup_cons]
    cases n == k' with
    | true => exact rel_refl _
    | false => exact ih

theorem lookup_zip_rel (pre post : List Json) (names : List Str) (n : Str) (h : Reordered v w) :
    Option.Rel Reordered ((names.zip (pre ++ v :: post)).lookup n)
      ((names.zip (pre ++ w :: post)).lookup n) := by
  induction pre generalizing names with
  | nil =>
    cases names with
    | nil => exact rel_refl _
    | cons m names => exact lookup_value_rel [] _ m n h
  | cons u pre ih =>
    cases names with
    | nil => exact rel_refl _
    | cons m names =>
      simp only [List.cons_append, List.zip_cons_cons, List.lookup_cons]
      cases n == m with
      | true => exact rel_refl _
      | false => exact ih names

theorem keys_zip_sublist :
    ∀ (names : List Str) (items : List Json), ((names.zip items).map Prod.fst).Sublist names
  | [], _ => by simp
  | _ :: _, [] => by simp
  | _ :: names, _ :: items => by simpa using keys_zip_sublist names items

theorem lookup_perm {es fs : List (Str × Json)} (h : es.Perm fs) (hn : (es.map Prod.fst).Nodup)
    (n : Str) : es.lookup n = fs.lookup n := by
  have hn' : (fs.map Prod.fst).Nodup := (h.map _).nodup_iff.mp hn
  ext u
  rw [Assoc.lookup_eq_some hn, Assoc.lookup_eq_some hn', h.mem_iff]

section Regular

variable {α : Type} {names : List Str} {get get' : Str → Option Json} {name : Str}
  {read : Json → Option α} {default : α}

theorem fields_object (hn : (entries.map Prod.fst).Nodup) (hk : ∀ e ∈ entries, e.1 ∈ names) :
    fields names (.object entries) = some fun n => entries.lookup n :=
  if_pos ⟨hn, hk⟩

theorem openFields_object (hn : (entries.map Prod.fst).Nodup) (hk : ∀ e ∈ entries, e.1 ∈ names) :
    openFields names (.object entries) = some fun n => entries.lookup n := by
  have hall : entries.filter (fun e => decide (e.1 ∈ names)) = entries := by
    rw [List.filter_eq_self]
    exact fun e he => decide_eq_true (hk e he)
  simp only [openFields, hall, if_pos hn]

theorem lookup_filter_key {n : Str} (hn : n ∈ names) :
    (entries.filter fun e => e.1 ∈ names).lookup n = entries.lookup n := by
  induction entries with
  | nil => rfl
  | cons e entries ih =>
    obtain ⟨k, v⟩ := e
    by_cases hk : n = k
    · subst hk
      rw [List.filter_cons, if_pos (decide_eq_true hn), List.lookup_cons_self,
        List.lookup_cons_self]
    · have hne : (n == k) = false := beq_false_of_ne hk
      rw [List.lookup_cons, hne, ← ih, List.filter_cons]
      split
      · rw [List.lookup_cons, hne]
      · rfl

theorem openFields_lookup (h : openFields names (.object entries) = some get) {n : Str}
    (hn : n ∈ names) : get n = entries.lookup n := by
  simp only [openFields] at h
  split_ifs at h
  obtain rfl := Option.some.inj h
  exact lookup_filter_key hn

theorem keys_given_sublist (entries : List (Str × Option Json)) :
    ((given entries).map Prod.fst).Sublist (entries.map Prod.fst) := by
  induction entries with
  | nil => exact .slnil
  | cons e entries ih =>
    obtain ⟨k, v⟩ := e
    cases v with
    | none => exact ih.cons k
    | some v => exact ih.cons_cons k

theorem lookup_given {entries : List (Str × Option Json)} (hn : (entries.map Prod.fst).Nodup)
    (n : Str) : (given entries).lookup n = (entries.lookup n).join := by
  induction entries with
  | nil => rfl
  | cons e entries ih =>
    obtain ⟨k, v⟩ := e
    rw [List.map_cons, List.nodup_cons] at hn
    rw [List.lookup_cons]
    cases hk : n == k with
    | false =>
      rw [← ih hn.2]
      cases v with
      | none => rfl
      | some v =>
        change List.lookup n ((k, v) :: given entries) = _
        rw [List.lookup_cons, hk]
    | true =>
      obtain rfl := beq_iff_eq.mp hk
      cases v with
      | none =>
        have hout : ∀ v, (n, v) ∉ given entries := by
          intro v h
          have hkey : n ∈ (given entries).map Prod.fst := List.mem_map_of_mem h
          exact hn.1 ((keys_given_sublist entries).mem hkey)
        exact Assoc.lookup_eq_none.mpr hout
      | some v =>
        change List.lookup n ((n, v) :: given entries) = _
        rw [List.lookup_cons, beq_self_eq_true]
        rfl

theorem openFields_given {entries : List (Str × Option Json)} (hn : (entries.map Prod.fst).Nodup) :
    openFields (entries.map Prod.fst) (.object (given entries)) =
      some fun n => (entries.lookup n).join := by
  have hsub := keys_given_sublist entries
  have hkeys : ∀ e ∈ given entries, e.1 ∈ entries.map Prod.fst := by
    intro e he
    have hkey : e.1 ∈ (given entries).map Prod.fst := List.mem_map_of_mem he
    exact hsub.mem hkey
  rw [openFields_object (hn.sublist hsub) hkeys]
  exact congrArg some (funext (lookup_given hn))

theorem bind_fields_leaf {build : (Str → Option Json) → Option α} (h : v.Leaf) :
    (fields names v).bind build = none := by
  cases v <;> first | rfl | exact h.elim

theorem mem_of_readList {l : List α} (h : readList read v = some l) :
    ∀ a ∈ l, ∃ item, read item = some a := by
  cases v with
  | array items =>
    rw [readList] at h
    induction items generalizing l with
    | nil =>
      obtain rfl := Option.some.inj h
      simp
    | cons item items ih =>
      rw [List.mapM_cons] at h
      obtain ⟨a, ha, h⟩ := Option.bind_eq_some_iff.mp h
      obtain ⟨rest, hrest, h⟩ := Option.bind_eq_some_iff.mp h
      obtain rfl := Option.some.inj h
      exact List.forall_mem_cons.mpr ⟨⟨item, ha⟩, ih hrest⟩
  | null => cases h
  | bool b => cases h
  | number n => cases h
  | string s => cases h
  | object entries => cases h

/-- A struct does not see the order of its entries if its fields do not. -/
theorem fields_reordered {build : (Str → Option Json) → Option α}
    (hb : ∀ get get', (∀ n, Option.Rel Reordered (get n) (get' n)) → build get = build get')
    (h : Reordered v w) : (fields names v).bind build = (fields names w).bind build := by
  induction h with
  | refl v => rfl
  | trans _ _ ih ih' => exact ih.trans ih'
  | @perm es fs h =>
    unfold fields
    by_cases hn : (es.map Prod.fst).Nodup
    · have hn' : (fs.map Prod.fst).Nodup := (h.map _).nodup_iff.mp hn
      have hlook : (fun n => es.lookup n) = fun n => fs.lookup n := funext (lookup_perm h hn)
      simp only [hn, hn', h.mem_iff, true_and, hlook]
    · have hn' : ¬ (fs.map Prod.fst).Nodup := mt (h.map _).nodup_iff.mpr hn
      simp only [hn, hn', false_and, if_false]
  | item pre post h =>
    unfold fields
    simp only [List.length_append, List.length_cons]
    split_ifs
    · exact hb _ _ fun n => lookup_zip_rel pre post names n h
    · rfl
  | value pre post k h =>
    unfold fields
    simp only [List.map_append, List.map_cons, List.forall_mem_append, List.forall_mem_cons]
    split_ifs
    · exact hb _ _ fun n => lookup_value_rel pre post k n h
    · rfl

theorem fields_once (hn : names.Nodup) (h : fields names v = some get)
    (hg : ∀ n ∈ names, ∀ u, get n = some u → ¬ u.Repeats) : ¬ v.Repeats := by
  unfold fields at h
  split at h
  · split_ifs at h with hkeys
    obtain rfl := Option.some.inj h
    rw [repeats_object]
    rintro (hdup | ⟨e, he, hr⟩)
    · exact hdup hkeys.1
    · exact hg e.1 (hkeys.2 e he) e.2 ((Assoc.lookup_eq_some hkeys.1).mpr he) hr
  · rename_i items
    split_ifs at h with hlen
    obtain rfl := Option.some.inj h
    rw [repeats_array]
    rintro ⟨u, hu, hr⟩
    obtain ⟨i, hi, rfl⟩ := List.getElem_of_mem hu
    have hkeys : ((names.zip items).map Prod.fst).Nodup := hn.sublist (keys_zip_sublist names items)
    have hmem : (names[i], items[i]) ∈ names.zip items := by
      rw [List.mem_iff_getElem]
      exact ⟨i, by simp; omega, by simp⟩
    exact hg names[i] (List.getElem_mem _) items[i] ((Assoc.lookup_eq_some hkeys).mpr hmem) hr
  · cases h

theorem field_reordered (hread : Regular read)
    (h : Option.Rel Reordered (get name) (get' name)) :
    field get name read default = field get' name read default := by
  unfold field
  generalize get name = x at h
  generalize get' name = y at h
  cases h with
  | none => rfl
  | some h => exact hread.reordered h

theorem field_once {a : α} (hread : Regular read) (h : field get name read default = some a)
    (hv : get name = some v) : ¬ v.Repeats := by
  rw [field, hv] at h
  exact hread.once h

theorem Regular.of_fields {build : (Str → Option Json) → Option α} (hn : names.Nodup)
    (hb : ∀ get get', (∀ n, Option.Rel Reordered (get n) (get' n)) → build get = build get')
    (honce : ∀ get a, build get = some a → ∀ n ∈ names, ∀ u, get n = some u → ¬ u.Repeats) :
    Regular fun v => (fields names v).bind build := by
  constructor
  · exact fields_reordered hb
  · intro v a ha
    obtain ⟨get, hget, ha⟩ := Option.bind_eq_some_iff.mp ha
    exact fields_once hn hget (honce get a ha)

theorem Regular.of_three {β γ δ : Type} {n₁ n₂ n₃ : Str} {read₁ : Json → Option β}
    {read₂ : Json → Option γ} {read₃ : Json → Option δ} {d₁ : β} {d₂ : γ} {d₃ : δ}
    {mk : β → γ → δ → α} (hn : [n₁, n₂, n₃].Nodup) (h₁ : Regular read₁) (h₂ : Regular read₂)
    (h₃ : Regular read₃) :
    Regular fun v => (fields [n₁, n₂, n₃] v).bind fun get => do
      let a ← field get n₁ read₁ d₁
      let b ← field get n₂ read₂ d₂
      let c ← field get n₃ read₃ d₃
      return mk a b c := by
  apply Regular.of_fields hn
  · intro get get' h
    rw [field_reordered h₁ (h _), field_reordered h₂ (h _), field_reordered h₃ (h _)]
  · intro get a ha
    obtain ⟨a₁, ha₁, ha⟩ := Option.bind_eq_some_iff.mp ha
    obtain ⟨a₂, ha₂, ha⟩ := Option.bind_eq_some_iff.mp ha
    obtain ⟨a₃, ha₃, -⟩ := Option.bind_eq_some_iff.mp ha
    simp only [List.forall_mem_cons]
    exact ⟨fun _ => field_once h₁ ha₁, fun _ => field_once h₂ ha₂,
      fun _ => field_once h₃ ha₃, by simp⟩

theorem Regular.of_leaf (h : ∀ v, ¬ v.Leaf → read v = none) : Regular read := by
  constructor
  · intro v w hr
    by_cases hv : v.Leaf
    · rw [hr.eq_of_leaf hv]
    · rw [h v hv, h w (mt hr.leaf_iff.mpr hv)]
  · intro v a ha
    by_contra hr
    have hv : ¬ v.Leaf := fun hv => hv.not_repeats hr
    rw [h v hv] at ha
    cases ha

theorem regular_readBool : Regular readBool := by
  apply Regular.of_leaf
  intro v hv
  cases v <;> simp [Leaf, readBool] at hv ⊢

theorem regular_readString : Regular readString := by
  apply Regular.of_leaf
  intro v hv
  cases v <;> simp [Leaf, readString] at hv ⊢

theorem readOption_of_not_leaf (hv : ¬ v.Leaf) : readOption read v = (read v).map some := by
  cases v <;> first | rfl | exact absurd trivial hv

theorem Regular.readOption (h : Regular read) : Regular (readOption read) := by
  constructor
  · intro v w hr
    by_cases hv : v.Leaf
    · rw [hr.eq_of_leaf hv]
    · rw [readOption_of_not_leaf hv, readOption_of_not_leaf (mt hr.leaf_iff.mpr hv), h.reordered hr]
  · intro v a ha
    by_cases hv : v.Leaf
    · exact hv.not_repeats
    · rw [readOption_of_not_leaf hv] at ha
      obtain ⟨b, hb, -⟩ := Option.map_eq_some_iff.mp ha
      exact h.once hb

theorem readVariant_object (variants : List (Str × α)) (h : entries.length ≠ 1) :
    readVariant variants (.object entries) = none := by
  unfold readVariant
  split
  · rename_i hv
    cases hv
  · rename_i hv
    obtain rfl := Json.object.inj hv
    exact absurd rfl h
  · rfl

theorem regular_readVariant (variants : List (Str × α)) : Regular (readVariant variants) := by
  constructor
  · intro v w h
    induction h with
    | refl v => rfl
    | trans _ _ ih ih' => exact ih.trans ih'
    | @perm es fs h =>
      by_cases hlen : es.length = 1
      · obtain ⟨e, rfl⟩ := List.length_eq_one_iff.mp hlen
        rw [List.perm_singleton.mp h.symm]
      · rw [readVariant_object variants hlen, readVariant_object variants (h.length_eq ▸ hlen)]
    | item pre post h => rfl
    | @value pre post k v w h =>
      by_cases hlen : (pre ++ (k, v) :: post).length = 1
      · obtain ⟨rfl, rfl⟩ : pre = [] ∧ post = [] := by
          simpa [Nat.add_eq_one_iff] using hlen
        by_cases hv : v.Leaf
        · rw [h.eq_of_leaf hv]
        · have hw : ¬ w.Leaf := mt h.leaf_iff.mpr hv
          cases v <;> cases w <;> first | rfl | exact absurd trivial hv | exact absurd trivial hw
      · rw [readVariant_object variants hlen, readVariant_object variants (by simpa using hlen)]
  · intro v a ha
    unfold readVariant at ha
    split at ha
    · exact Leaf.not_repeats trivial
    · rw [repeats_object]
      simpa using Leaf.not_repeats (v := .null) trivial
    · cases ha

end Regular

end Json

end Sukkula
