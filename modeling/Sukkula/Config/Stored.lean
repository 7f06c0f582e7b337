import Sukkula.Config.Read
import Sukkula.Config.Unique

/-! # The settings file

A file is used whole if it reads and validates whole. Else it is read part by
part, and what cannot be used is locked down: a part on its own, every protocol
when there is a key that is not known, and everything when the file cannot be
read one way only.
-/

namespace Sukkula.Config

open Str Json

inductive Unusable
  | part (p : Part)
  | unknown
  | file
  deriving DecidableEq, Repr

structure Stored where
  settings : Settings
  unusable : List Unusable
  deriving DecidableEq, Repr

namespace Settings

/-- Takes a value as a part, if it parses as that part and the whole still validates. -/
def adopt (s : Settings) (p : Part) (value : Json) : Option Settings :=
  match p.read value with
  | none => none
  | some v => (p.put s v).validate.toOption

/-- A part that could not be used: the name falls back to the model and logging stays off. -/
def lockDown (s : Settings) : Part → Settings
  | .localsend => { s with localsend := .lockedDown }
  | .quickshare => { s with quickshare := .lockedDown }
  | .wormhole => { s with wormhole := .lockedDown }
  | .bluetooth => { s with bluetooth := .lockedDown }
  | .croc => { s with croc := .lockedDown }
  | .deviceName | .logging => s

def allOff (s : Settings) : Settings :=
  { s with
    localsend.enabled := false
    quickshare.enabled := false
    wormhole.enabled := false
    bluetooth.enabled := false
    croc.enabled := false }

end Settings

namespace Stored

def mark (st : Stored) (u : Unusable) : Stored :=
  { st with unusable := if u ∈ st.unusable then st.unusable else st.unusable ++ [u] }

def take (st : Stored) (e : Str × Json) : Stored :=
  match Part.ofKey e.1 with
  | none => st.mark .unknown
  | some p =>
    match st.settings.adopt p e.2 with
    | some s => { st with settings := s }
    | none => { st with settings := st.settings.lockDown p }.mark (.part p)

def byParts (map : List (Str × Json)) : Stored :=
  let st := map.foldl take ⟨{}, []⟩
  if .unknown ∈ st.unusable then { st with settings := st.settings.allOff } else st

end Stored

/-- The settings, if the file reads and validates whole. -/
def readWhole (v : Json) : Option Settings := (Settings.read v).bind fun s => s.validate.toOption

/-- Reads a settings file. The bytes are parsed by `parse`. -/
def fromStored (parse : List UInt8 → Option Json) (bytes : List UInt8) : Stored :=
  match (parse bytes).bind readWhole with
  | some settings => ⟨settings, []⟩
  | none =>
    match (parse bytes).bind unique with
    | some (.object map) => Stored.byParts map
    | _ => ⟨Settings.lockedDown, [.file]⟩

namespace Part

variable {s t : Settings} {p q : Part} {v : Json}

/-- The value that a part of the file has, if it can be used. -/
def used (p : Part) (v : Json) : Option p.Value := (p.read v).bind fun a => (p.check a).toOption

theorem used_eq_some {w : p.Value} :
    p.used v = some w ↔ ∃ a, p.read v = some a ∧ p.check a = .ok w := by
  unfold used
  rw [Option.bind_eq_some_iff]
  refine exists_congr fun a => and_congr_right fun _ => ?_
  cases p.check a <;> simp [Except.toOption]

theorem validate_put_error (hs : s.validate = .ok s) {a : p.Value} {e : ConfigError}
    (hc : p.check a = .error e) : ∃ e', (p.put s a).validate = .error e' := by
  cases hv : (p.put s a).validate with
  | error e' => exact ⟨e', rfl⟩
  | ok t =>
    obtain ⟨w, hw, -⟩ := (validate_put hs).mp hv
    rw [hc] at hw
    cases hw

theorem adopt_eq (hs : s.validate = .ok s) : s.adopt p v = (p.used v).map (p.put s) := by
  unfold Settings.adopt used
  cases p.read v with
  | none => rfl
  | some a =>
    cases hc : p.check a with
    | ok w => simp [(validate_put hs).mpr ⟨w, hc, rfl⟩, Except.toOption, hc]
    | error e =>
      obtain ⟨e', he⟩ := validate_put_error hs hc
      simp [Except.toOption, hc, he]

theorem validate_putFallback (hs : s.validate = .ok s) :
    (p.put s p.fallback).validate = .ok (p.put s p.fallback) :=
  (validate_put hs).mpr ⟨_, check_fallback, rfl⟩

theorem lockDown_eq (h : p.get s = p.get {}) : s.lockDown p = p.put s p.fallback := by
  cases p with
  | deviceName => exact put_get.symm.trans (congrArg (put s .deviceName) h)
  | logging => exact put_get.symm.trans (congrArg (put s .logging) h)
  | _ => rfl

theorem validate_lockDown (hs : s.validate = .ok s) :
    (s.lockDown p).validate = .ok (s.lockDown p) := by
  cases p with
  | deviceName => exact hs
  | logging => exact hs
  | localsend => exact validate_putFallback (p := .localsend) hs
  | quickshare => exact validate_putFallback (p := .quickshare) hs
  | wormhole => exact validate_putFallback (p := .wormhole) hs
  | bluetooth => exact validate_putFallback (p := .bluetooth) hs
  | croc => exact validate_putFallback (p := .croc) hs

theorem get_lockDown_ne (h : q ≠ p) : q.get (s.lockDown p) = q.get s := by
  cases p <;> cases q <;> first | rfl | exact absurd rfl h

end Part

namespace Stored

open Config.Part

variable {st : Stored} {e : Str × Json} {l : List (Str × Json)} {u : Unusable} {p : Part}

@[simp] theorem settings_mark : (st.mark u).settings = st.settings := rfl

theorem mem_mark {u' : Unusable} : u' ∈ (st.mark u).unusable ↔ u' ∈ st.unusable ∨ u' = u := by
  unfold mark
  by_cases h : u ∈ st.unusable
  · simp only [if_pos h]
    exact ⟨Or.inl, fun hu => hu.elim id fun he => he ▸ h⟩
  · simp [h]

theorem take_validate (h : st.settings.validate = .ok st.settings) :
    (st.take e).settings.validate = .ok (st.take e).settings := by
  unfold take
  cases ofKey e.1 with
  | none => exact h
  | some p =>
    dsimp only
    rw [adopt_eq h]
    cases hu : p.used e.2 with
    | none => exact validate_lockDown h
    | some w =>
      obtain ⟨a, -, ha⟩ := used_eq_some.mp hu
      exact (validate_put h).mpr ⟨w, Part.check_check ha, rfl⟩

theorem get_take_ne (h : st.settings.validate = .ok st.settings) (hp : p.key ≠ e.1) :
    p.get (st.take e).settings = p.get st.settings := by
  unfold take
  cases hk : ofKey e.1 with
  | none => rfl
  | some q =>
    have hpq : p ≠ q := fun he => hp (he ▸ ofKey_eq_some.mp hk)
    dsimp only
    rw [adopt_eq h]
    cases q.used e.2 with
    | none => exact get_lockDown_ne hpq
    | some w => exact get_put_ne hpq w

theorem get_take_self (h : st.settings.validate = .ok st.settings) (hp : p.key = e.1)
    (hd : p.get st.settings = p.get {}) :
    p.get (st.take e).settings = (p.used e.2).getD p.fallback := by
  unfold take
  rw [ofKey_eq_some.mpr hp]
  dsimp only
  rw [adopt_eq h]
  cases p.used e.2 with
  | none =>
    simp only [Option.map_none, settings_mark, Option.getD_none]
    rw [lockDown_eq hd, get_put]
  | some w => simp

theorem foldl_validate (h : st.settings.validate = .ok st.settings) :
    (l.foldl take st).settings.validate = .ok (l.foldl take st).settings := by
  induction l generalizing st with
  | nil => exact h
  | cons e l ih => exact ih (take_validate h)

theorem get_foldl_of_not_mem (h : st.settings.validate = .ok st.settings)
    (hp : p.key ∉ l.map Prod.fst) : p.get (l.foldl take st).settings = p.get st.settings := by
  induction l generalizing st with
  | nil => rfl
  | cons e l ih =>
    rw [List.map_cons, List.mem_cons, not_or] at hp
    exact (ih (take_validate h) hp.2).trans (get_take_ne h hp.1)

theorem get_foldl (h : st.settings.validate = .ok st.settings) (hn : (l.map Prod.fst).Nodup)
    (hd : p.get st.settings = p.get {}) : p.get (l.foldl take st).settings =
      (l.lookup p.key).elim (p.get {}) fun v => (p.used v).getD p.fallback := by
  induction l generalizing st with
  | nil => exact hd
  | cons e l ih =>
    obtain ⟨k, v⟩ := e
    rw [List.map_cons, List.nodup_cons] at hn
    rw [List.foldl_cons, List.lookup_cons]
    by_cases hp : p.key = k
    · subst hp
      rw [beq_self_eq_true, get_foldl_of_not_mem (take_validate h) hn.1]
      exact get_take_self h rfl hd
    · rw [beq_false_of_ne hp]
      exact ih (take_validate h) hn.2 ((get_take_ne h hp).trans hd)

def Spoils (e : Str × Json) (u : Unusable) : Prop :=
  (u = .unknown ∧ ofKey e.1 = none) ∨ ∃ p, u = .part p ∧ p.key = e.1 ∧ p.used e.2 = none

theorem mem_take (h : st.settings.validate = .ok st.settings) :
    u ∈ (st.take e).unusable ↔ u ∈ st.unusable ∨ Spoils e u := by
  unfold take Spoils
  cases hk : ofKey e.1 with
  | none =>
    have hne : ∀ p : Part, p.key ≠ e.1 := fun p hp => by simp [ofKey_eq_some.mpr hp] at hk
    simp [mem_mark, hne]
  | some q =>
    have hq := ofKey_eq_some.mp hk
    dsimp only
    rw [adopt_eq h]
    have hunique : ∀ p : Part, p.key = e.1 ↔ p = q := fun p =>
      ⟨fun hp => key_injective (hp.trans hq.symm), fun hp => hp ▸ hq⟩
    cases hu : q.used e.2 with
    | none => simp [mem_mark, hunique, hu]
    | some w => simp [hunique, hu]

theorem mem_foldl (h : st.settings.validate = .ok st.settings) :
    u ∈ (l.foldl take st).unusable ↔ u ∈ st.unusable ∨ ∃ e ∈ l, Spoils e u := by
  induction l generalizing st with
  | nil => simp
  | cons e l ih =>
    rw [List.foldl_cons, ih (take_validate h), mem_take h, List.exists_mem_cons_iff, or_assoc]

end Stored

end Sukkula.Config
