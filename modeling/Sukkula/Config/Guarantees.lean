import Sukkula.Config.Stored

/-! # What is made of a settings file

A file that is an object with no key twice is read part by part: each part of
the result depends on its own entry, and a key that is not known switches the
protocols off. Files that cannot be read one way only are locked down, except
that a struct may also be given as an array of its fields.
-/

namespace Sukkula.Config

open Str Json Config.Part

namespace Part

variable {p : Part} {v w : Json} {entries m : List (Str × Json)}

/-- What a part becomes, from its own value in the file: its default when there is none, and the
value that validates together with the defaults of the others if there is one. -/
def stored (p : Part) : Option Json → p.Value
  | none => p.get {}
  | some v =>
    match p.read v with
    | none => p.fallback
    | some a =>
      match (p.put {} a).validate with
      | .ok s => p.get s
      | .error _ => p.fallback

def Usable (p : Part) (v : Json) : Prop := ∃ a s, p.read v = some a ∧ (p.put {} a).validate = .ok s

theorem stored_eq (given : Option Json) :
    p.stored given = given.elim (p.get {}) fun v => (p.used v).getD p.fallback := by
  cases given with
  | none => rfl
  | some v =>
    cases hr : p.read v with
    | none => simp [stored, used, hr]
    | some a =>
      cases hc : p.check a with
      | ok w =>
        simp [stored, used, hr, hc, (validate_put validate_default).mpr ⟨w, hc, rfl⟩,
          Except.toOption]
      | error e =>
        obtain ⟨e', he⟩ := validate_put_error validate_default hc
        simp [stored, used, hr, hc, he, Except.toOption]

theorem usable_iff : p.Usable v ↔ p.used v ≠ none := by
  rw [Option.ne_none_iff_exists']
  simp only [used_eq_some]
  constructor
  · rintro ⟨a, s, ha, hs⟩
    obtain ⟨w, hw, -⟩ := (validate_put validate_default).mp hs
    exact ⟨w, a, ha, hw⟩
  · rintro ⟨w, a, ha, hw⟩
    exact ⟨a, _, ha, (validate_put validate_default).mpr ⟨w, hw, rfl⟩⟩

theorem used_reordered (h : Reordered v w) : p.used v = p.used w := by
  rw [used, used, (regular_read p).reordered h]

def Unknown (entries : List (Str × Json)) : Prop := ∃ e ∈ entries, ofKey e.1 = none

instance : DecidablePred Unknown := fun entries =>
  inferInstanceAs (Decidable (∃ e ∈ entries, ofKey e.1 = none))

def settle (entries : List (Str × Json)) : Settings :=
  let s := join fun p => p.stored (entries.lookup p.key)
  if Unknown entries then s.allOff else s

theorem get_allOff_congr {s t : Settings} (h : p.get s = p.get t) :
    p.get s.allOff = p.get t.allOff := by
  cases p with
  | deviceName => exact h
  | logging => exact h
  | localsend => exact congrArg (fun v : LocalSendSettings => { v with enabled := false }) h
  | quickshare => exact congrArg (fun v : QuickShareSettings => { v with enabled := false }) h
  | wormhole => exact congrArg (fun v : WormholeSettings => { v with enabled := false }) h
  | bluetooth => exact congrArg (fun v : BluetoothSettings => { v with enabled := false }) h
  | croc => exact congrArg (fun v : CrocSettings => { v with enabled := false }) h

theorem get_lockedDown : p.get Settings.lockedDown = p.fallback := by cases p <;> rfl

theorem get_allOff_fallback {s : Settings} (h : p.get s = p.fallback) :
    p.get s.allOff = p.fallback :=
  (get_allOff_congr (h.trans get_lockedDown.symm)).trans (by cases p <;> rfl)

theorem validate_allOff {s : Settings} (h : s.validate = .ok s) :
    s.allOff.validate = .ok s.allOff := by
  refine validate_eq_ok.mpr fun p => ?_
  have hp := check_of_validate h p
  cases p with
  | deviceName => exact hp
  | localsend =>
    obtain ⟨pin, hpin, he⟩ := map_eq_ok.mp hp
    exact map_eq_ok.mpr ⟨pin, hpin,
      congrArg (fun v : LocalSendSettings => { v with enabled := false }) he⟩
  | quickshare => rfl
  | wormhole =>
    obtain ⟨mailbox, hmailbox, hw⟩ := bind_eq_ok.mp hp
    obtain ⟨relay, hrelay, he⟩ := map_eq_ok.mp hw
    exact bind_eq_ok.mpr ⟨mailbox, hmailbox, map_eq_ok.mpr ⟨relay, hrelay,
      congrArg (fun v : WormholeSettings => { v with enabled := false }) he⟩⟩
  | bluetooth => rfl
  | croc =>
    obtain ⟨relay, hrelay, hw⟩ := bind_eq_ok.mp hp
    obtain ⟨password, hpassword, he⟩ := map_eq_ok.mp hw
    exact bind_eq_ok.mpr ⟨relay, hrelay, map_eq_ok.mpr ⟨password, hpassword,
      congrArg (fun v : CrocSettings => { v with enabled := false }) he⟩⟩
  | logging => exact hp

theorem unknown_iff : Unknown entries ↔ ∃ k ∈ entries.map Prod.fst, ofKey k = none := by
  simp [Unknown]

/-- The map that the file is read into gives the same settings as the text. -/
theorem settle_unique (hm : unique (.object entries) = some (.object m)) :
    settle m = settle entries := by
  have honce : ¬ Repeats (.object entries) := fun h => by simp [unique_eq_none.mpr h] at hm
  obtain ⟨m', hm', hn, hp⟩ := unique_object honce
  obtain rfl : m = m' := by simpa [hm] using hm'
  have hentries : (entries.map Prod.fst).Nodup := by
    by_contra hdup
    exact honce (repeats_object.mpr (Or.inl hdup))
  have hstored : ∀ p : Part, p.stored (m.lookup p.key) = p.stored (entries.lookup p.key) := by
    intro p
    rw [stored_eq, stored_eq]
    cases hv : entries.lookup p.key with
    | none =>
      have hnone : m.lookup p.key = none := by
        rw [Assoc.lookup_eq_none] at hv ⊢
        intro w hw
        obtain ⟨e, he, hew⟩ := List.mem_map.mp (hp.mem_iff.mp hw)
        have hk : e.1 = p.key := congrArg Prod.fst hew
        exact hv e.2 (hk ▸ he)
      rw [hnone]
    | some v =>
      have he := Assoc.mem_of_lookup hv
      have hsome : m.lookup p.key = some ((unique v).getD .null) :=
        (Assoc.lookup_eq_some hn).mpr (hp.mem_iff.mpr (List.mem_map_of_mem he))
      obtain ⟨w, hw⟩ : ∃ w, unique v = some w := by
        rw [← Option.ne_none_iff_exists']
        exact fun hnone => honce (repeats_object.mpr (Or.inr ⟨_, he, unique_eq_none.mp hnone⟩))
      rw [hsome, hw]
      simp [used_reordered (reordered_of_unique hw)]
  have hunknown : Unknown m ↔ Unknown entries := by
    have hkeys := hp.map Prod.fst
    rw [keys_uniqueEntry] at hkeys
    rw [unknown_iff, unknown_iff]
    exact exists_congr fun k => and_congr_left' hkeys.mem_iff
  simp only [settle, hstored, hunknown]

end Part

namespace Stored

variable {entries m : List (Str × Json)} {p : Part}

theorem foldl_settings (hn : (m.map Prod.fst).Nodup) :
    (m.foldl take ⟨{}, []⟩).settings = join fun p => p.stored (m.lookup p.key) := by
  refine Part.ext fun p => ?_
  rw [get_foldl validate_default hn rfl, get_join, stored_eq]

theorem unknown_mem_foldl : .unknown ∈ (m.foldl take ⟨{}, []⟩).unusable ↔ Unknown m := by
  rw [mem_foldl validate_default]
  simp [Spoils, Unknown]

theorem byParts_settings (hn : (m.map Prod.fst).Nodup) : (byParts m).settings = settle m := by
  simp only [byParts, settle, unknown_mem_foldl, ← foldl_settings hn]
  split_ifs <;> rfl

theorem byParts_unusable : (byParts m).unusable = (m.foldl take ⟨{}, []⟩).unusable := by
  unfold byParts
  dsimp only
  split_ifs <;> rfl

theorem byParts_validate (m : List (Str × Json)) :
    (byParts m).settings.validate = .ok (byParts m).settings := by
  have h : (m.foldl take ⟨{}, []⟩).settings.validate = _ := foldl_validate validate_default
  unfold byParts
  dsimp only
  split_ifs
  · exact validate_allOff h
  · exact h

/-- A file that reads whole has no key that is not known, and every part of it can be used. -/
theorem readWhole_eq_some {t : Settings} (h : readWhole (.object entries) = some t) :
    settle entries = t ∧ ∀ e ∈ entries, ∀ u, ¬ Spoils e u := by
  obtain ⟨s, hs, ht⟩ := Option.bind_eq_some_iff.mp h
  have ht : s.validate = .ok t := by
    cases hv : s.validate with
    | error e => simp [hv, Except.toOption] at ht
    | ok t' => simpa [hv, Except.toOption] using ht
  obtain ⟨given, hgiven, hs⟩ := Option.bind_eq_some_iff.mp hs
  rw [Settings.ofFields_eq_some] at hs
  unfold fields at hgiven
  dsimp only at hgiven
  split_ifs at hgiven with hkeys
  obtain rfl := Option.some.inj hgiven
  have hknown : ∀ e ∈ entries, ∃ p : Part, p.key = e.1 := fun e he => by
    simpa using hkeys.2 e he
  have hused : ∀ p : Part, ∀ v, entries.lookup p.key = some v → p.used v = some (p.get t) := by
    intro p v hv
    have hp := hs p
    simp only [field, hv] at hp
    exact used_eq_some.mpr ⟨_, hp, check_of_validate ht p⟩
  have hunknown : ¬ Unknown entries := by
    rintro ⟨e, he, hnone⟩
    obtain ⟨p, hp⟩ := hknown e he
    simp [ofKey_eq_some.mpr hp] at hnone
  constructor
  · rw [settle, if_neg hunknown]
    refine Part.ext fun p => ?_
    rw [get_join, stored_eq]
    cases hv : entries.lookup p.key with
    | none =>
      have hp := hs p
      simp only [field, hv, Option.some.injEq] at hp
      have hcheck := check_of_validate ht p
      rw [← hp, check_default] at hcheck
      exact Except.ok.inj hcheck
    | some v => simp [hused p v hv]
  · rintro e he u (⟨-, hnone⟩ | ⟨p, -, hp, hnone⟩)
    · exact hunknown ⟨e, he, hnone⟩
    · rw [hused p e.2 ((Assoc.lookup_eq_some hkeys.1).mpr (hp ▸ he))] at hnone
      cases hnone

end Stored

section FromStored

variable {parse : List UInt8 → Option Json} {bytes bytes' : List UInt8} {v w : Json}
  {entries m : List (Str × Json)} {p : Part}

theorem fromStored_eq_byParts (hparse : parse bytes = some (.object entries))
    (hm : unique (.object entries) = some (.object m)) : fromStored parse bytes = .byParts m := by
  unfold fromStored
  rw [hparse, Option.bind_some, Option.bind_some, hm]
  cases hw : readWhole (.object entries) with
  | none => rfl
  | some t =>
    have hr := reordered_of_unique hm
    have hw' : readWhole (.object m) = some t := by
      rwa [readWhole, ← Settings.regular_read.reordered hr]
    obtain ⟨hsettle, hnone⟩ := Stored.readWhole_eq_some hw'
    have hn : (m.map Prod.fst).Nodup := by
      by_contra hdup
      obtain ⟨s, hs, -⟩ := Option.bind_eq_some_iff.mp hw'
      exact Settings.regular_read.once hs (repeats_object.mpr (Or.inl hdup))
    have hunusable : (Stored.byParts m).unusable = [] := by
      rw [Stored.byParts_unusable, List.eq_nil_iff_forall_not_mem]
      intro u hu
      obtain hu | ⟨e, he, hu⟩ := (Stored.mem_foldl validate_default).mp hu
      · cases hu
      · exact hnone e he u hu
    rw [← hsettle, ← Stored.byParts_settings hn, ← hunusable]

/-- Two files that differ only in the order of entries give the same. -/
theorem fromStored_reordered (h : parse bytes = some v) (h' : parse bytes' = some w)
    (hr : Reordered v w) : fromStored parse bytes = fromStored parse bytes' := by
  have hwhole : readWhole v = readWhole w := by
    rw [readWhole, readWhole, Settings.regular_read.reordered hr]
  simp only [fromStored, h, h', Option.bind_some, hwhole, unique_reordered hr]

theorem fromStored_settings (hparse : parse bytes = some (.object entries))
    (honce : ¬ Repeats (.object entries)) : (fromStored parse bytes).settings = settle entries := by
  obtain ⟨m, hm, hn, -⟩ := unique_object honce
  rw [fromStored_eq_byParts hparse hm, Stored.byParts_settings hn, settle_unique hm]

theorem fromStored_toJson {s t : Settings} (hs : s.validate = .ok t)
    (hparse : parse bytes = some t.toJson) : fromStored parse bytes = ⟨t, []⟩ := by
  have hwhole : readWhole t.toJson = some t := by
    simp [readWhole, Settings.read_toJson, validate_validate hs, Except.toOption]
  simp [fromStored, hparse, hwhole]

/-- A settings file that is an object with no key twice is read part by part, so neither the order
of its keys nor the other parts matter to a part. Reading it whole, where that works, comes to the
same; the result is valid; and what was saved is read back. -/
theorem stored_part_by_part (parse : List UInt8 → Option Json) :
    (∀ bytes entries, parse bytes = some (.object entries) → ¬ Repeats (.object entries) →
      (fromStored parse bytes).settings = settle entries ∧
      (∃ m, unique (.object entries) = some (.object m) ∧ fromStored parse bytes = .byParts m) ∧
      (fromStored parse bytes).settings.validate = .ok (fromStored parse bytes).settings ∧
      (∀ bytes' w, parse bytes' = some w → Reordered (.object entries) w →
        fromStored parse bytes' = fromStored parse bytes) ∧
      ∀ bytes' entries', parse bytes' = some (.object entries') → ¬ Repeats (.object entries') →
        (Unknown entries ↔ Unknown entries') → ∀ p : Part,
        entries.lookup p.key = entries'.lookup p.key →
        p.get (fromStored parse bytes).settings = p.get (fromStored parse bytes').settings) ∧
    ∀ (print : Json → List UInt8) (s t : Settings), s.validate = .ok t →
      parse (print t.toJson) = some t.toJson → fromStored parse (print t.toJson) = ⟨t, []⟩ := by
  refine ⟨fun bytes entries hparse honce => ?_, fun print s t hs ht => fromStored_toJson hs ht⟩
  obtain ⟨m, hm, -⟩ := unique_object honce
  have hparts := fromStored_eq_byParts hparse hm
  refine ⟨fromStored_settings hparse honce, ⟨m, hm, hparts⟩, ?_, ?_, ?_⟩
  · rw [hparts]
    exact Stored.byParts_validate m
  · intro bytes' w hw hr
    exact (fromStored_reordered hparse hw hr).symm
  · intro bytes' entries' hparse' honce' hunknown p hp
    rw [fromStored_settings hparse honce, fromStored_settings hparse' honce', settle, settle]
    by_cases hu : Unknown entries
    · rw [if_pos hu, if_pos (hunknown.mp hu)]
      exact get_allOff_congr (by rw [get_join, get_join, hp])
    · rw [if_neg hu, if_neg (mt hunknown.mpr hu), get_join, get_join, hp]

example : fromStored (fun _ => some (.object [("logging".toList, .bool true),
      ("localsend".toList, .object [("pin".toList, .string "12 34".toList)])])) [] =
    ⟨{ localsend := .lockedDown, logging := true }, [.part .localsend]⟩ := by decide +kernel

def IsObject : Json → Prop
  | .object _ => True
  | _ => False

/-- Such a file is locked down as a whole, and such a section on its own: what is not an object, or
has a key twice. -/
def FailsClosed (parse : List UInt8 → Option Json) (bytes : List UInt8) : Prop :=
  ((∀ entries, parse bytes ≠ some (.object entries)) ∨ (∃ v, parse bytes = some v ∧ v.Repeats) →
    fromStored parse bytes = ⟨Settings.lockedDown, [.file]⟩) ∧
  ∀ entries, parse bytes = some (.object entries) → ¬ Repeats (.object entries) →
    ∀ p : Part, p.IsProtocol → ∀ v, (p.key, v) ∈ entries → ¬ IsObject v →
      p.get (fromStored parse bytes).settings = p.get Settings.lockedDown ∧
      .part p ∈ (fromStored parse bytes).unusable

theorem read_leaf (hp : p.IsProtocol) (h : v.Leaf) : p.read v = none := by
  cases p with
  | deviceName => exact hp.elim
  | logging => exact hp.elim
  | localsend => exact bind_fields_leaf h
  | quickshare => exact bind_fields_leaf h
  | wormhole => exact bind_fields_leaf h
  | bluetooth => exact bind_fields_leaf h
  | croc => exact bind_fields_leaf h

theorem fromStored_file (hwhole : ∀ v, parse bytes = some v → readWhole v = none)
    (hunique : ∀ v, parse bytes = some v → ∀ m, unique v ≠ some (.object m)) :
    fromStored parse bytes = ⟨Settings.lockedDown, [.file]⟩ := by
  unfold fromStored
  cases hv : parse bytes with
  | none => rfl
  | some v =>
    simp only [Option.bind_some, hwhole v hv]
    split
    · rename_i m hm
      exact absurd hm (hunique v hv m)
    · rfl

/-- The parts that are named are those whose value cannot be used. -/
theorem part_mem_unusable (hparse : parse bytes = some (.object entries))
    (honce : ¬ Repeats (.object entries)) : .part p ∈ (fromStored parse bytes).unusable ↔
      ∃ v, (p.key, v) ∈ entries ∧ ¬ p.Usable v := by
  obtain ⟨m, hm, -, hperm⟩ := unique_object honce
  have hused : ∀ e ∈ entries, p.used (uniqueEntry e).2 = p.used e.2 := by
    intro e he
    obtain ⟨w, hw⟩ : ∃ w, unique e.2 = some w := by
      rw [← Option.ne_none_iff_exists']
      exact fun hnone => honce (repeats_object.mpr (Or.inr ⟨e, he, unique_eq_none.mp hnone⟩))
    simp [uniqueEntry, hw, used_reordered (reordered_of_unique hw)]
  rw [fromStored_eq_byParts hparse hm, Stored.byParts_unusable, Stored.mem_foldl validate_default]
  constructor
  · rintro (hnil | ⟨e, he, ⟨hu, -⟩ | ⟨q, hq, hk, hnone⟩⟩)
    · cases hnil
    · cases hu
    · obtain rfl := Unusable.part.inj hq
      obtain ⟨f, hf, rfl⟩ := List.mem_map.mp (hperm.mem_iff.mp he)
      have hkey : p.key = f.1 := hk
      refine ⟨f.2, hkey ▸ hf, fun husable => usable_iff.mp husable ?_⟩
      rw [← hused f hf, hnone]
  · rintro ⟨v, hv, hunusable⟩
    refine Or.inr ⟨_, hperm.mem_iff.mpr (List.mem_map_of_mem hv), Or.inr ⟨p, rfl, rfl, ?_⟩⟩
    rw [hused _ hv]
    by_contra hnone
    exact hunusable (usable_iff.mpr hnone)

theorem get_of_unusable (hparse : parse bytes = some (.object entries))
    (honce : ¬ Repeats (.object entries)) (hv : (p.key, v) ∈ entries) (hu : ¬ p.Usable v) :
    p.get (fromStored parse bytes).settings = p.get Settings.lockedDown := by
  have hn : (entries.map Prod.fst).Nodup := by
    by_contra hdup
    exact honce (repeats_object.mpr (Or.inl hdup))
  have hnone : p.used v = none := by
    by_contra hnone
    exact hu (usable_iff.mpr hnone)
  have hget : p.get (join fun p => p.stored (entries.lookup p.key)) = p.fallback := by
    rw [get_join, (Assoc.lookup_eq_some hn).mpr hv, stored_eq, Option.elim_some, hnone]
    rfl
  rw [fromStored_settings hparse honce, settle, get_lockedDown]
  split_ifs
  · exact get_allOff_fallback hget
  · exact hget

/-- Reading a settings file fails closed, except where an array can stand for a struct: exactly
when the file is no array that reads and validates by position as the settings, and no protocol's
section is one that does as that section. -/
theorem fails_closed_iff (parse : List UInt8 → Option Json) (bytes : List UInt8) :
    FailsClosed parse bytes ↔
      (∀ items, parse bytes = some (.array items) → readWhole (.array items) = none) ∧
      ∀ entries, parse bytes = some (.object entries) → ¬ Repeats (.object entries) →
        ∀ p : Part, p.IsProtocol → ∀ items, (p.key, .array items) ∈ entries →
          ¬ p.Usable (.array items) := by
  constructor
  · rintro ⟨hfile, hsection⟩
    constructor
    · intro items hparse
      cases hw : readWhole (.array items) with
      | none => rfl
      | some t =>
        have hlocked := hfile (Or.inl (by simp [hparse]))
        simp [fromStored, hparse, hw] at hlocked
    · intro entries hparse honce p hp items hitems husable
      obtain ⟨-, hmem⟩ := hsection entries hparse honce p hp _ hitems (by simp [IsObject])
      obtain ⟨v, hv, hunusable⟩ := (part_mem_unusable hparse honce).mp hmem
      have hn : (entries.map Prod.fst).Nodup := by
        by_contra hdup
        exact honce (repeats_object.mpr (Or.inl hdup))
      exact hunusable (Assoc.value_unique hn hv hitems ▸ husable)
  · rintro ⟨hfile, hsection⟩
    constructor
    · rintro (hobject | ⟨v, hv, hr⟩)
      · apply fromStored_file
        · intro v hv
          cases v with
          | array items => exact hfile items hv
          | object entries => exact absurd hv (hobject entries)
          | _ => rfl
        · intro v hv m hm
          cases v with
          | object entries => exact hobject entries hv
          | _ => simp [unique] at hm
      · apply fromStored_file
        · intro w hw
          obtain rfl := Option.some.inj (hv.symm.trans hw)
          rw [readWhole, Option.bind_eq_none_iff]
          intro s hs
          exact absurd hr (Settings.regular_read.once hs)
        · intro w hw m hm
          obtain rfl := Option.some.inj (hv.symm.trans hw)
          simp [unique_eq_none.mpr hr] at hm
    · intro entries hparse honce p hp v hv hobject
      have hunusable : ¬ p.Usable v := by
        cases v with
        | object entries => exact absurd trivial hobject
        | array items => exact hsection entries hparse honce p hp items hv
        | _ =>
          rintro ⟨a, s, ha, -⟩
          have hleaf := ha.symm.trans (read_leaf hp (by trivial))
          cases hleaf
      exact ⟨get_of_unusable hparse honce hv hunusable,
        (part_mem_unusable hparse honce).mpr ⟨v, hv, hunusable⟩⟩

/-- What a parser makes of the shortest array and the shortest object. -/
def parseShortest (bytes : List UInt8) : Option Json :=
  if bytes = [0x5B, 0x5D] then some (.array [])
  else if bytes = [0x7B, 0x7D] then some (.object [])
  else none

/-- A file that is the empty array gives the defaults, with every protocol on. -/
theorem array_not_locked_down : fromStored parseShortest [0x5B, 0x5D] = ⟨{}, []⟩ ∧
    ¬ FailsClosed parseShortest [0x5B, 0x5D] := by
  have hdefaults : fromStored parseShortest [0x5B, 0x5D] = ⟨{}, []⟩ := by decide +kernel
  refine ⟨hdefaults, fun h => ?_⟩
  have hlocked := h.1 (Or.inl fun entries => by simp [parseShortest])
  rw [hdefaults] at hlocked
  exact absurd hlocked (by decide)

end FromStored

end Sukkula.Config
