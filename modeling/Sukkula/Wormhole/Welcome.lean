import Sukkula.Wormhole.Mailbox

/-! # The welcome, as the library reads it

The library reads a message of the server with derived types, and these read a
struct from an array too, by position. The guard looks the hashcash up by name,
so it reads what the library reads where the welcome is an object, and nothing
where it is an array.
-/

namespace Sukkula.Wormhole

open Json
open LocalSend (ErrorInfo)

section Reading

structure HashcashPermission where
  bits : ℕ
  resource : Str
  deriving DecidableEq

structure PermissionRequired where
  none : Bool
  hashcash : Option HashcashPermission
  deriving DecidableEq

structure WelcomeMessage where
  currentCliVersion : Option Str
  motd : Option Str
  error : Option Str
  permissionRequired : Option PermissionRequired
  deriving DecidableEq

def readU32 : Json → Option ℕ
  | .number (.integer i) => if 0 ≤ i ∧ i < 2 ^ 32 then some i.toNat else none
  | _ => none

def HashcashPermission.read (v : Json) : Option HashcashPermission :=
  (fields ["bits".toList, "resource".toList] v).bind fun get => do
    let bits ← (get "bits".toList).bind readU32
    let resource ← (get "resource".toList).bind readString
    return { bits, resource }

-- Whether serde_json makes a `Value` of what is found. A raw value may be none.
variable (value : Json → Bool)

def nonePresent : Json → Option Bool
  | .null => some false
  | .object entries => if entries.all fun e => value e.2 then some true else none
  | _ => none

/-- A struct with a flattened field is read from an object only; every other key goes into that
field, as a value. -/
def PermissionRequired.read : Json → Option PermissionRequired
  | .object entries =>
    (openFields ["none".toList, "hashcash".toList] (.object entries)).bind fun get => do
      let present ← (get "none".toList).bind (nonePresent value)
      let hashcash ← field get "hashcash".toList (readOption HashcashPermission.read) .none
      if entries.all fun e => e.1 ∈ ["none".toList, "hashcash".toList] || value e.2 then
        some { none := present, hashcash }
      else .none
  | _ => .none

def WelcomeMessage.read (v : Json) : Option WelcomeMessage :=
  (allFields ["current_cli_version".toList, "motd".toList, "error".toList,
      "permission-required".toList] v).bind fun get => do
    let currentCliVersion ← field get "current_cli_version".toList (readOption readString) none
    let motd ← field get "motd".toList (readOption readString) none
    let error ← field get "error".toList (readOption readString) none
    let permissionRequired ← field get "permission-required".toList
      (readOption (PermissionRequired.read value)) none
    return { currentCliVersion, motd, error, permissionRequired }

/-- `InboundMessage::Welcome`, by its tag. -/
def readWelcome (v : Json) : Option WelcomeMessage :=
  (allFields ["type".toList, "welcome".toList] v).bind fun get => do
    let type ← (get "type".toList).bind readString
    if type = "welcome".toList then (get "welcome".toList).bind (WelcomeMessage.read value)
    else none

end Reading

def Modest (m : WelcomeMessage) : Prop :=
  ∀ p ∈ m.permissionRequired, ∀ h ∈ p.hashcash,
    h.bits ≤ maxHashcashBits ∧ h.resource.len ≤ maxHashcashResourceBytes

def ByPosition (v : Json) : Prop := ∃ items, get "welcome".toList v = some (.array items)

section Unique

variable {v w : Json} {key : Str}

theorem unique_array {items : List Json} (h : Config.unique (.array items) = some w) :
    ∃ ws, w = .array ws := by
  obtain ⟨ws, -, rfl⟩ := Option.map_eq_some_iff.mp h
  exact ⟨ws, rfl⟩

theorem unique_null (h : Config.unique v = some .null) : v = .null := by
  cases v with
  | null => rfl
  | bool | number | string => cases h
  | array items =>
    obtain ⟨ws, hws⟩ := unique_array h
    cases hws
  | object entries =>
    obtain ⟨m, -, hm⟩ := Option.map_eq_some_iff.mp h
    cases hm

theorem lookup_uniqueEntry (entries : List (Str × Json)) :
    (entries.map Config.uniqueEntry).lookup key =
      (entries.lookup key).map fun v => (Config.unique v).getD .null := by
  induction entries with
  | nil => rfl
  | cons e entries ih =>
    obtain ⟨k, v⟩ := e
    simp only [List.map_cons, Config.uniqueEntry, List.lookup_cons]
    cases key == k with
    | true => rfl
    | false => exact ih

/-- The guard finds under a key what stands there, its own keys checked in turn. -/
theorem get_unique (h : Config.unique v = some w) :
    get key w = (get key v).bind Config.unique := by
  have hr : ¬ v.Repeats := fun hr => by simp [Config.unique_eq_none.mpr hr] at h
  cases v with
  | null | bool | number | string =>
    rw [← Option.some.inj h]
    rfl
  | array items =>
    obtain ⟨ws, rfl⟩ := unique_array h
    rfl
  | object entries =>
    obtain ⟨m, hm, hnodup, hperm⟩ := Config.unique_object hr
    obtain rfl := Option.some.inj (hm.symm.trans h)
    rw [get, get, Json.lookup_perm hperm hnodup, lookup_uniqueEntry]
    cases hl : entries.lookup key with
    | none => rfl
    | some u =>
      cases hu : Config.unique u with
      | none =>
        have hmem := Assoc.mem_of_lookup hl
        exact absurd (Json.repeats_object.mpr (.inr ⟨_, hmem, Config.unique_eq_none.mp hu⟩)) hr
      | some x => simp [hu]

theorem get_unique_some (h : Config.unique v = some w) {a : Json} (ha : get key v = some a) :
    ∃ b, get key w = some b ∧ Config.unique a = some b := by
  have hr : ¬ v.Repeats := fun hr => by simp [Config.unique_eq_none.mpr hr] at h
  cases v with
  | null | bool | number | string | array => cases ha
  | object entries =>
    obtain ⟨b, hb⟩ : ∃ b, Config.unique a = some b := by
      rw [← Option.ne_none_iff_exists', Ne, Config.unique_eq_none]
      exact fun hr' => hr (Json.repeats_object.mpr (.inr ⟨_, Assoc.mem_of_lookup ha, hr'⟩))
    refine ⟨b, ?_, hb⟩
    rw [get_unique h, ha, Option.bind_some, hb]

end Unique

section Fields

variable {v : Json} {names : List Str} {n : Str} {gets : Str → Option Json}

/-- An object gives its fields by name, anything else but an array none. -/
theorem get_of_allFields (h : allFields names v = some gets) (harray : ∀ items, v ≠ .array items)
    (hn : n ∈ names) : gets n = get n v := by
  cases v with
  | null | bool | number | string => cases h
  | array items => exact absurd rfl (harray items)
  | object entries => exact openFields_lookup h hn

theorem field_readOption {α : Type} {read : Json → Option α} {a : α}
    (h : field gets n (readOption read) none = some (some a)) :
    ∃ v, gets n = some v ∧ v ≠ .null ∧ read v = some a := by
  unfold field at h
  cases hv : gets n with
  | none =>
    rw [hv] at h
    cases h
  | some v =>
    rw [hv] at h
    cases v with
    | null => cases h
    | bool | number | string | array | object =>
      obtain ⟨b, hb, hab⟩ := Option.map_eq_some_iff.mp h
      obtain rfl := Option.some.inj hab
      exact ⟨_, rfl, by simp, hb⟩

end Fields

section Agreement

variable {value : Json → Bool} {v w : Json} {m : WelcomeMessage} {p : PermissionRequired}
  {h : HashcashPermission}

/-- What the library reads as hashcash by name, the guard looks at. -/
theorem HashcashPermission.read_cases (hread : HashcashPermission.read v = some h) :
    (∃ items, v = .array items) ∨
      (get "bits".toList v).bind readU32 = some h.bits ∧
        (get "resource".toList v).bind readString = some h.resource := by
  obtain ⟨gets, hgets, hread⟩ := Option.bind_eq_some_iff.mp hread
  obtain ⟨bits, hbits, hread⟩ := Option.bind_eq_some_iff.mp hread
  obtain ⟨resource, hresource, hread⟩ := Option.bind_eq_some_iff.mp hread
  obtain rfl := Option.some.inj hread
  cases v with
  | null | bool | number | string => cases hgets
  | array items => exact .inl ⟨items, rfl⟩
  | object entries =>
    simp only [fields] at hgets
    split_ifs at hgets
    obtain rfl := Option.some.inj hgets
    exact .inr ⟨hbits, hresource⟩

theorem PermissionRequired.read_hashcash (hread : PermissionRequired.read value v = some p)
    (hp : p.hashcash = some h) :
    ∃ a, get "hashcash".toList v = some a ∧ a ≠ .null ∧ HashcashPermission.read a = some h := by
  cases v with
  | null | bool | number | string | array => cases hread
  | object entries =>
    obtain ⟨gets, hgets, hread⟩ := Option.bind_eq_some_iff.mp hread
    obtain ⟨present, -, hread⟩ := Option.bind_eq_some_iff.mp hread
    obtain ⟨hashcash, hfield, hread⟩ := Option.bind_eq_some_iff.mp hread
    split_ifs at hread
    obtain rfl := Option.some.inj hread
    obtain rfl : hashcash = some h := hp
    obtain ⟨a, ha, hnull, hra⟩ := field_readOption hfield
    rw [openFields_lookup hgets (by simp)] at ha
    exact ⟨a, ha, hnull, hra⟩

theorem WelcomeMessage.read_permission (hread : WelcomeMessage.read value v = some m)
    (harray : ∀ items, v ≠ .array items) (hm : m.permissionRequired = some p) :
    ∃ a, get "permission-required".toList v = some a ∧
      PermissionRequired.read value a = some p := by
  obtain ⟨gets, hgets, hread⟩ := Option.bind_eq_some_iff.mp hread
  obtain ⟨_, -, hread⟩ := Option.bind_eq_some_iff.mp hread
  obtain ⟨_, -, hread⟩ := Option.bind_eq_some_iff.mp hread
  obtain ⟨_, -, hread⟩ := Option.bind_eq_some_iff.mp hread
  obtain ⟨permission, hfield, hread⟩ := Option.bind_eq_some_iff.mp hread
  obtain rfl := Option.some.inj hread
  obtain rfl : permission = some p := hm
  obtain ⟨a, ha, -, hra⟩ := field_readOption hfield
  rw [get_of_allFields hgets harray (by simp)] at ha
  exact ⟨a, ha, hra⟩

theorem readWelcome_object {entries : List (Str × Json)}
    (hread : readWelcome value (.object entries) = some m) :
    ∃ a, get "welcome".toList (.object entries) = some a ∧
      WelcomeMessage.read value a = some m := by
  obtain ⟨gets, hgets, hread⟩ := Option.bind_eq_some_iff.mp hread
  obtain ⟨type, -, hread⟩ := Option.bind_eq_some_iff.mp hread
  split_ifs at hread
  obtain ⟨a, ha, hra⟩ := Option.bind_eq_some_iff.mp hread
  rw [get_of_allFields hgets (by simp) (by simp)] at ha
  exact ⟨a, ha, hra⟩

theorem asStr_of_readString {s : Str} (hv : readString v = some s)
    (hu : Config.unique v = some w) : asStr w = some s := by
  cases v with
  | null | bool | number | array | object => cases hv
  | string t =>
    obtain rfl := Option.some.inj hu
    exact hv

/-- A message that the library reads as a welcome is one to the guard. -/
theorem type_of_readWelcome {type : Str} (hu : Config.unique v = some w)
    (htype : (get "type".toList w).bind asStr = some type)
    (hread : readWelcome value v = some m) : type = "welcome".toList := by
  cases v with
  | null | bool | number | string =>
    obtain rfl := Option.some.inj hu
    cases htype
  | array items =>
    obtain ⟨ws, rfl⟩ := unique_array hu
    cases htype
  | object entries =>
    obtain ⟨gets, hgets, hread⟩ := Option.bind_eq_some_iff.mp hread
    obtain ⟨type', htype', hread⟩ := Option.bind_eq_some_iff.mp hread
    obtain ⟨a, ha, hra⟩ := Option.bind_eq_some_iff.mp htype'
    rw [get_of_allFields hgets (by simp) (by simp)] at ha
    obtain ⟨a', ha', hua⟩ := get_unique_some hu ha
    rw [ha', Option.bind_some, asStr_of_readString hra hua] at htype
    obtain rfl := Option.some.inj htype
    split_ifs at hread with hw
    exact hw

theorem checkWelcome_ok {a b c : Json} (hcheck : checkWelcome v = .ok ())
    (ha : get "welcome".toList v = some a) (hb : get "permission-required".toList a = some b)
    (hc : get "hashcash".toList b = some c) (hnull : c ≠ .null) :
    (∃ bits, (get "bits".toList c).bind asU64 = some bits ∧ bits ≤ maxHashcashBits) ∧
    ∃ r : Str, (get "resource".toList c).bind asStr = some r ∧
      r.len ≤ maxHashcashResourceBytes := by
  unfold checkWelcome at hcheck
  rw [ha, Option.bind_some, hb, Option.bind_some, hc] at hcheck
  split at hcheck
  · rename_i hn
    cases hn
  · rename_i hn
    exact absurd (Option.some.inj hn) hnull
  · rename_i c' _ hn
    obtain rfl := Option.some.inj hn
    simp only [] at hcheck
    split at hcheck
    · rename_i hok
      obtain ⟨hbits, hres⟩ := hok
      rw [Option.any_eq_true] at hbits hres
      obtain ⟨bits, hbits, hle⟩ := hbits
      obtain ⟨r, hr, hlen⟩ := hres
      exact ⟨⟨bits, hbits, of_decide_eq_true hle⟩, r, hr, of_decide_eq_true hlen⟩
    · cases hcheck

theorem asU64_of_readU32 {n : ℕ} (hv : readU32 v = some n) (hu : Config.unique v = some w) :
    asU64 w = some n := by
  cases v with
  | null | bool | string | array | object => cases hv
  | number k =>
    obtain rfl := Option.some.inj hu
    cases k with
    | float => cases hv
    | integer i =>
      simp only [readU32] at hv
      split_ifs at hv with hi
      obtain rfl := Option.some.inj hv
      exact if_pos ⟨hi.1, hi.2.trans (by decide)⟩

/-- Hashcash that passes asks for as little of the library. An array of bits and resource has
nothing under the names that the guard looks for. -/
theorem HashcashPermission.little (hu : Config.unique v = some w)
    (hread : HashcashPermission.read v = some h)
    (hbits : ∃ bits, (get "bits".toList w).bind asU64 = some bits ∧ bits ≤ maxHashcashBits)
    (hresource : ∃ r : Str, (get "resource".toList w).bind asStr = some r ∧
      r.len ≤ maxHashcashResourceBytes) :
    h.bits ≤ maxHashcashBits ∧ h.resource.len ≤ maxHashcashResourceBytes := by
  obtain ⟨bits, hbits, hle⟩ := hbits
  obtain ⟨r, hr, hlen⟩ := hresource
  rcases HashcashPermission.read_cases hread with ⟨items, rfl⟩ | ⟨hb, hs⟩
  · obtain ⟨ws, rfl⟩ := unique_array hu
    cases hbits
  · obtain ⟨a, ha, hra⟩ := Option.bind_eq_some_iff.mp hb
    obtain ⟨b, hb, hrb⟩ := Option.bind_eq_some_iff.mp hs
    obtain ⟨a', ha', hua⟩ := get_unique_some hu ha
    obtain ⟨b', hb', hub⟩ := get_unique_some hu hb
    rw [ha', Option.bind_some, asU64_of_readU32 hra hua] at hbits
    rw [hb', Option.bind_some, asStr_of_readString hrb hub] at hr
    obtain rfl := Option.some.inj hbits
    obtain rfl := Option.some.inj hr
    exact ⟨hle, hlen⟩

/-- A welcome that passes, and is no array, asks the library for little. -/
theorem modest_of_checkWelcome {type : Str} (hu : Config.unique v = some w)
    (htype : (get "type".toList w).bind asStr = some type) (hcheck : checkWelcome w = .ok ())
    (hpos : ¬ ByPosition v) (hread : readWelcome value v = some m) : Modest m := by
  intro p hp h hh
  cases v with
  | null | bool | number | string =>
    obtain rfl := Option.some.inj hu
    cases htype
  | array items =>
    obtain ⟨ws, rfl⟩ := unique_array hu
    cases htype
  | object entries =>
    obtain ⟨a, ha, hra⟩ := readWelcome_object hread
    have harray : ∀ items, a ≠ .array items := by
      rintro items rfl
      exact hpos ⟨items, ha⟩
    obtain ⟨b, hb, hrb⟩ := WelcomeMessage.read_permission hra harray hp
    obtain ⟨c, hc, hnull, hrc⟩ := PermissionRequired.read_hashcash hrb hh
    obtain ⟨a', ha', hua⟩ := get_unique_some hu ha
    obtain ⟨b', hb', hub⟩ := get_unique_some hua hb
    obtain ⟨c', hc', huc⟩ := get_unique_some hub hc
    have hnull' : c' ≠ .null := by
      rintro rfl
      exact hnull (unique_null huc)
    obtain ⟨hbits, hresource⟩ := checkWelcome_ok hcheck ha' hb' hc' hnull'
    exact HashcashPermission.little huc hrc hbits hresource

end Agreement

end Sukkula.Wormhole
