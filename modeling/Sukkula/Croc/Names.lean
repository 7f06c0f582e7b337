import Mathlib.Data.List.Perm.Subperm
import Sukkula.Croc.Decimal
import Sukkula.Library.Case

/-! # The names of the files that are offered

croc's receivers refuse two files of one name, and names that croc 11 would not
write. The sender lists each file under a name that they take, and numbers a name
that is taken already, letter case aside.
-/

namespace Sukkula.Croc

open Str Case Case.Tables

/-- Whether Go counts `c` as printable in a name. -/
def prints (c : Char) : Bool :=
  let u := c.toNat
  let within lo hi := lo ≤ u && u ≤ hi
  -- `char::is_control`
  let control := within 0 0x1F || within 0x7F 0x9F
  !control &&
    !(u == 0xAD || within 0x600 0x605 || u == 0x61C || u == 0x6DD || u == 0x70F ||
      within 0x890 0x891 || u == 0x8E2 || u == 0x180E || within 0x200B 0x200F ||
      within 0x2028 0x202E || within 0x2060 0x206F || within 0xFDD0 0xFDEF || u == 0xFEFF ||
      within 0xFFF9 0xFFFB || u == 0x110BD || u == 0x110CD || within 0x13430 0x1343F ||
      within 0x1BCA0 0x1BCA3 || within 0x1D173 0x1D17A || u == 0xE0001 || within 0xE0020 0xE007F ||
      within 0xE000 0xF8FF || within 0xF0000 0x10FFFF) &&
    u &&& 0xFFFE != 0xFFFE

def nameChar (c : Char) : Char :=
  if isWhitespace c then ' '
  else if c = ':' || c = '/' || c = '\\' then '_'
  else if !prints c then '_'
  else c

def devices : List Str :=
  ["CON", "PRN", "AUX", "NUL", "CLOCK$", "CONIN$", "CONOUT$"].map String.toList

def ports : List Str :=
  ["1", "2", "3", "4", "5", "6", "7", "8", "9", "¹", "²", "³"].map String.toList

def reserved (stem : Str) : Bool :=
  stem ∈ devices ||
    (("COM".toList.isPrefixOf? stem).or ("LPT".toList.isPrefixOf? stem)).any fun n => n ∈ ports

def hiddenNames : List Str := [".git", ".ssh", ".gnupg"].map String.toList

def refused (T : Tables) (name : Str) : Bool :=
  reserved (T.toUppercase (name.takeWhile (· ≠ '.'))) || T.toLowercase name ∈ hiddenNames

def endsBadly (name : Str) : Bool := name.getLast?.all fun c => c = '.' || c = ' '

def crocName (T : Tables) (name : Str) : Str :=
  let out := name.map nameChar
  let out := if endsBadly out then out.dropLast ++ ['_'] else out
  if refused T out then '_' :: out else out

/-- A name before and after the place of a number. -/
def splitName (name : Str) : Str × Str :=
  match rfind '.' name with
  | some i => if 0 < i then (name.take i, name.drop i) else (name, [])
  | none => (name, [])

def candidate (stem ext : Str) (n : ℕ) : Str :=
  stem ++ ' ' :: '(' :: (Nat.toDigits 10 n ++ ')' :: ext)

/-- The numbers from `n` on, so many of them. -/
def numbered (T : Tables) (taken : List Str) (stem ext : Str) : ℕ → ℕ → Option Str
  | 0, _ => none
  | turns + 1, n =>
    if T.toLowercase (candidate stem ext n) ∈ taken then
      numbered T taken stem ext turns (min (n + 1) (2 ^ 32 - 1))
    else some (candidate stem ext n)

/-- `name`, or `name (2)`, `name (3)`, … if it is taken, letter case aside. -/
def unique (T : Tables) (turns : ℕ) (taken : List Str) (name : Str) : Option Str :=
  if T.toLowercase name ∈ taken then
    numbered T taken (splitName name).1 (splitName name).2 turns 2
  else some name

/-- The names of the files, in order; what is listed is taken from then on. -/
def listNames (T : Tables) (turns : ℕ) : List Str → List Str → Option (List Str)
  | _, [] => some []
  | taken, name :: names => do
    let name ← unique T turns taken (crocName T name)
    return name :: (← listNames T turns (T.toLowercase name :: taken) names)

variable {T : Tables} {s name stem ext : Str} {c : Char} {taken : List Str}

section Listable

theorem barrier_space : T.Barrier ' ' := barrier_of_ascii (by decide) (by decide) (by decide)

theorem barrier_open : T.Barrier '(' := barrier_of_ascii (by decide) (by decide) (by decide)

theorem barrier_close : T.Barrier ')' := barrier_of_ascii (by decide) (by decide) (by decide)

theorem barrier_underscore : T.Barrier '_' := barrier_of_ascii (by decide) (by decide) (by decide)

theorem barrier_digit (h : c.isDigit) : T.Barrier c := by
  have hc : 48 ≤ c.toNat ∧ c.toNat ≤ 57 := by
    simp only [Char.isDigit, Bool.and_eq_true, decide_eq_true_eq] at h
    exact h
  refine barrier_of_ascii (by omega) ?_ (by simp; omega)
  have hall : ∀ u, 48 ≤ u → u ≤ 57 → (Char.ofNat u).isAlpha = false := by decide
  rw [← Char.ofNat_toNat c]
  exact hall c.toNat hc.1 hc.2

theorem nameChar_nameChar (c : Char) : nameChar (nameChar c) = nameChar c := by
  have hspace : nameChar ' ' = ' ' := by decide
  have hunder : nameChar '_' = '_' := by decide
  have hcases : nameChar c = ' ' ∨ nameChar c = '_' ∨ nameChar c = c := by
    unfold nameChar
    split_ifs
    · exact Or.inl rfl
    · exact Or.inr (Or.inl rfl)
    · exact Or.inr (Or.inl rfl)
    · exact Or.inr (Or.inr rfl)
  rcases hcases with h | h | h
  · rw [h, hspace]
  · rw [h, hunder]
  · rw [h, h]

theorem nameChar_eq_self (h : nameChar c = c) : c ≠ ':' ∧ c ≠ '/' ∧ c ≠ '\\' ∧ prints c := by
  refine ⟨?_, ?_, ?_, ?_⟩
  · rintro rfl
    exact absurd h (by decide)
  · rintro rfl
    exact absurd h (by decide)
  · rintro rfl
    exact absurd h (by decide)
  · by_contra hp
    unfold nameChar at h
    split_ifs at h with hw hs
    · rw [← h] at hp
      exact hp (by decide)
    · rw [← h] at hp
      exact hp (by decide)
    · rw [← h] at hp
      exact hp (by decide)
    · rw [Bool.not_eq_true] at hp
      simp_all

structure Listable (T : Tables) (s : Str) : Prop where
  chars : ∀ c ∈ s, nameChar c = c
  ends : endsBadly s = false
  written : refused T s = false

theorem Listable.crocName_eq (h : Listable T s) : crocName T s = s := by
  have hmap : s.map nameChar = s := by
    refine (List.map_congr_left fun c hc => ?_).trans (List.map_id s)
    exact h.chars c hc
  simp only [crocName, hmap, h.ends, h.written, Bool.false_eq_true, if_false]

def reservedNames : List Str :=
  devices ++ (ports.map ("COM".toList ++ ·) ++ ports.map ("LPT".toList ++ ·))

theorem mem_reservedNames (h : reserved s) : s ∈ reservedNames := by
  unfold reservedNames
  simp only [reserved, Bool.or_eq_true, decide_eq_true_eq] at h
  rcases h with h | h
  · exact List.mem_append_left _ h
  · obtain ⟨n, hn, hport⟩ := (Option.any_eq_true _ _).mp h
    rw [decide_eq_true_eq] at hport
    refine List.mem_append_right _ (List.mem_append.mpr ?_)
    rcases Option.or_eq_some_iff.mp hn with hcom | ⟨-, hlpt⟩
    · left
      rw [← List.append_eq_of_isPrefixOf?_eq_some hcom]
      exact List.mem_map_of_mem hport
    · right
      rw [← List.append_eq_of_isPrefixOf?_eq_some hlpt]
      exact List.mem_map_of_mem hport

theorem reserved_spec (h : reserved s) : ' ' ∉ s ∧ s.head? ≠ some '_' := by
  have hall : ∀ s ∈ reservedNames, ' ' ∉ s ∧ s.head? ≠ some '_' := by decide
  exact hall s (mem_reservedNames h)

theorem hiddenNames_spec {s : Str} (h : s ∈ hiddenNames) : ' ' ∉ s ∧ s.head? ≠ some '_' := by
  have hall : ∀ s ∈ hiddenNames, ' ' ∉ s ∧ s.head? ≠ some '_' := by decide
  exact hall s h

/-- A name with an underscore in front is no device and not hidden. -/
theorem refused_underscore (T : Tables) (s : Str) : refused T ('_' :: s) = false := by
  have hlower : T.toLowercase ('_' :: s) = '_' :: T.toLowercase s :=
    toLowercase_barrier barrier_underscore [] s
  have htake : ('_' :: s).takeWhile (· ≠ '.') = '_' :: s.takeWhile (· ≠ '.') :=
    List.takeWhile_cons_of_pos (by decide)
  have hupper : T.toUppercase ('_' :: s.takeWhile (· ≠ '.')) =
      '_' :: T.toUppercase (s.takeWhile (· ≠ '.')) := by
    rw [toUppercase, List.flatMap_cons, T.upper_ascii '_' (by decide)]
    rfl
  rw [refused, htake, hupper, hlower, Bool.or_eq_false_iff]
  constructor
  · rw [← Bool.not_eq_true]
    exact fun h => (reserved_spec h).2 rfl
  · exact decide_eq_false fun h => (hiddenNames_spec h).2 rfl

theorem endsBadly_concat (s : Str) (c : Char) :
    endsBadly (s ++ [c]) = (c = '.' || c = ' ' : Bool) := by
  rw [endsBadly, List.getLast?_concat]
  rfl

theorem listable_crocName (T : Tables) (name : Str) : Listable T (crocName T name) := by
  have hchars : ∀ c ∈ name.map nameChar, nameChar c = c := by
    intro c hc
    obtain ⟨d, -, rfl⟩ := List.mem_map.mp hc
    exact nameChar_nameChar d
  have hunder : nameChar '_' = '_' := by decide
  unfold crocName
  generalize name.map nameChar = out at hchars
  -- the end is mended first, and then the whole name is looked at
  have hmended : ∃ s, (if endsBadly out then out.dropLast ++ ['_'] else out) = s ∧
      (∀ c ∈ s, nameChar c = c) ∧ endsBadly s = false := by
    refine ⟨_, rfl, ?_⟩
    split_ifs with hends
    · refine ⟨fun c hc => ?_, by rw [endsBadly_concat]; decide⟩
      rcases List.mem_append.mp hc with hc | hc
      · exact hchars c (List.dropLast_subset out hc)
      · rw [List.mem_singleton.mp hc, hunder]
    · exact ⟨hchars, by simpa using hends⟩
  obtain ⟨s, hs, hchars', hends⟩ := hmended
  simp only [hs]
  split_ifs with hrefused
  · refine ⟨List.forall_mem_cons.mpr ⟨hunder, hchars'⟩, ?_, refused_underscore T s⟩
    cases s with
    | nil => cases hends
    | cons d s => exact hends
  · exact ⟨hchars', hends, by simpa using hrefused⟩

theorem listable_iff : Listable T s ↔ crocName T s = s :=
  ⟨Listable.crocName_eq, fun h => h ▸ listable_crocName T s⟩

theorem Listable.ne_nil (h : Listable T s) : s ≠ [] := by
  rintro rfl
  exact absurd h.ends (by decide)

end Listable

section Candidates

theorem splitName_append (name : Str) : (splitName name).1 ++ (splitName name).2 = name := by
  unfold splitName
  split
  · split_ifs
    · exact List.take_append_drop _ _
    · exact List.append_nil _
  · exact List.append_nil _

theorem isDigit_of_mem_toDigits {n : ℕ} (h : c ∈ Nat.toDigits 10 n) : c.isDigit :=
  List.all_eq_true.mp (all_isDigit_toDigits n) c h

theorem toLowercase_candidate (stem ext : Str) (n : ℕ) :
    T.toLowercase (candidate stem ext n) =
      T.toLowercase stem ++ ' ' :: '(' :: (Nat.toDigits 10 n ++ ')' :: T.toLowercase ext) := by
  have hopen : T.toLowercase ('(' :: (Nat.toDigits 10 n ++ ')' :: ext)) =
      '(' :: T.toLowercase (Nat.toDigits 10 n ++ ')' :: ext) :=
      toLowercase_barrier barrier_open [] _
  have hdigits : T.toLowercase (Nat.toDigits 10 n ++ ')' :: ext) =
      Nat.toDigits 10 n ++ T.toLowercase (')' :: ext) :=
    toLowercase_barriers (fun c hc => barrier_digit (isDigit_of_mem_toDigits hc)) _
  have hclose : T.toLowercase (')' :: ext) = ')' :: T.toLowercase ext :=
    toLowercase_barrier barrier_close [] _
  rw [candidate, toLowercase_barrier barrier_space, hopen, hdigits, hclose]

/-- Candidates with different numbers differ, letter case aside. -/
theorem toLowercase_candidate_injective (stem ext : Str) :
    Function.Injective fun n => T.toLowercase (candidate stem ext n) := by
  intro n m h
  simp only [toLowercase_candidate] at h
  have h' := (List.cons.inj (List.cons.inj (List.append_cancel_left h)).2).2
  have hdigits : Nat.toDigits 10 n = Nat.toDigits 10 m := List.append_cancel_right h'
  have hback := congrArg (fun d => Nat.ofDigitChars 10 d 0) hdigits
  simpa only [Nat.ofDigitChars_toDigits (by decide : 1 < 10) (by decide : 10 ≤ 10)] using hback

theorem candidate_ne (n : ℕ) : candidate stem ext n ≠ stem ++ ext := by
  intro h
  have hlen := congrArg List.length h
  simp only [candidate, List.length_append, List.length_cons] at hlen
  omega

theorem takeWhile_append_of_not_mem {l t : Str} (h : '.' ∉ l) :
    (l ++ t).takeWhile (· ≠ '.') = l ++ t.takeWhile (· ≠ '.') := by
  apply List.takeWhile_append_of_pos
  intro c hc
  rw [decide_eq_true_eq]
  rintro rfl
  exact h hc

theorem listable_candidate (h : Listable T name) (n : ℕ) :
    Listable T (candidate (splitName name).1 (splitName name).2 n) := by
  have happ := splitName_append name
  generalize (splitName name).1 = stem at happ
  generalize (splitName name).2 = ext at happ
  have hdigit : ∀ c ∈ Nat.toDigits 10 n, nameChar c = c := by
    intro c hc
    have hd := isDigit_of_mem_toDigits hc
    have hrange : 48 ≤ c.toNat ∧ c.toNat ≤ 57 := by
      simp only [Char.isDigit, Bool.and_eq_true, decide_eq_true_eq] at hd
      exact hd
    have hall : ∀ u, 48 ≤ u → u ≤ 57 → nameChar (Char.ofNat u) = Char.ofNat u := by decide
    rw [← Char.ofNat_toNat c]
    exact hall c.toNat hrange.1 hrange.2
  have hspace : ' ' ∈ candidate stem ext n := by simp [candidate]
  refine ⟨?_, ?_, ?_⟩
  · intro c hc
    have hname : ∀ c, c ∈ stem ∨ c ∈ ext → nameChar c = c := fun c hc =>
      h.chars c (happ ▸ List.mem_append.mpr hc)
    simp only [candidate, List.mem_append, List.mem_cons] at hc
    rcases hc with hc | rfl | rfl | hc | rfl | hc
    · exact hname c (Or.inl hc)
    · decide
    · decide
    · exact hdigit c hc
    · decide
    · exact hname c (Or.inr hc)
  · have hends := h.ends
    cases ext using List.reverseRecOn with
    | nil =>
      have hlast : candidate stem [] n = stem ++ ' ' :: '(' :: Nat.toDigits 10 n ++ [')'] := by
        simp [candidate]
      rw [hlast, endsBadly_concat]
      decide
    | append_singleton ext c =>
      have hlast : candidate stem (ext ++ [c]) n = candidate stem ext n ++ [c] := by
        simp [candidate]
      rw [← happ, ← List.append_assoc, endsBadly_concat] at hends
      rw [hlast, endsBadly_concat, hends]
  · rw [refused, Bool.or_eq_false_iff]
    constructor
    · rw [← Bool.not_eq_true]
      intro hres
      by_cases hdot : '.' ∈ stem
      · -- the part before the first dot is that of the name
        have hsame : ∀ t, (stem ++ t).takeWhile (· ≠ '.') = stem.takeWhile (· ≠ '.') := by
          intro t
          rw [List.takeWhile_append, if_neg]
          intro hlen
          rw [← (List.takeWhile_prefix _).eq_of_length hlen] at hdot
          exact absurd (List.mem_takeWhile_imp hdot) (by decide)
        have hnot := h.written
        rw [refused, Bool.or_eq_false_iff, ← happ, hsame] at hnot
        rw [candidate, hsame, hnot.1] at hres
        cases hres
      · have hin : ' ' ∈ (candidate stem ext n).takeWhile (· ≠ '.') := by
          rw [candidate, takeWhile_append_of_not_mem hdot, List.takeWhile_cons_of_pos (by decide)]
          simp
        exact (reserved_spec hres).1 (mem_toUppercase (T.upper_ascii ' ' (by decide)) hin)
    · apply decide_eq_false
      intro hhid
      apply (hiddenNames_spec hhid).1
      rw [toLowercase_candidate]
      simp

end Candidates

section Unique

/-- The first number that is free, if there are turns enough to get there. -/
theorem numbered_eq {n m turns : ℕ} (hnm : n ≤ m) (hm : m < 2 ^ 32) (hturns : m < n + turns)
    (hused : ∀ k, n ≤ k → k < m → T.toLowercase (candidate stem ext k) ∈ taken)
    (hfree : T.toLowercase (candidate stem ext m) ∉ taken) :
    numbered T taken stem ext turns n = some (candidate stem ext m) := by
  induction turns generalizing n with
  | zero => omega
  | succ turns ih =>
    rcases Nat.eq_or_lt_of_le hnm with rfl | hlt
    · exact if_neg hfree
    · have hnext : min (n + 1) (2 ^ 32 - 1) = n + 1 := by omega
      rw [numbered, if_pos (hused n (Nat.le_refl n) hlt), hnext]
      exact ih hlt (by omega) fun k hk => hused k (by omega)

/-- One of so many candidates is free, as there are more than taken names. -/
theorem exists_free (T : Tables) (taken : List Str) (stem ext : Str) (n : ℕ) :
    ∃ m, n ≤ m ∧ m ≤ n + taken.length ∧ T.toLowercase (candidate stem ext m) ∉ taken := by
  by_contra hnone
  push Not at hnone
  have hinj : Function.Injective fun i => T.toLowercase (candidate stem ext (n + i)) := fun i j h =>
    Nat.add_left_cancel (toLowercase_candidate_injective stem ext h)
  have hnodup : ((List.range (taken.length + 1)).map
      fun i => T.toLowercase (candidate stem ext (n + i))).Nodup := List.nodup_range.map hinj
  have hsub : ((List.range (taken.length + 1)).map
      fun i => T.toLowercase (candidate stem ext (n + i))) ⊆ taken := by
    intro s hs
    obtain ⟨i, hi, rfl⟩ := List.mem_map.mp hs
    have := List.mem_range.mp hi
    exact hnone (n + i) (by omega) (by omega)
  have hlen := (List.subperm_of_subset hnodup hsub).length_le
  rw [List.length_map, List.length_range] at hlen
  omega

theorem unique_spec (h : Listable T name) (hlen : taken.length < 500) :
    ∃ s, (∀ turns, 500 ≤ turns → unique T turns taken name = some s) ∧ T.toLowercase s ∉ taken ∧
      Listable T s ∧ (s = name ↔ T.toLowercase name ∉ taken) := by
  by_cases hin : T.toLowercase name ∈ taken
  · have hexists := exists_free T taken (splitName name).1 (splitName name).2 2
    obtain ⟨hm, hle, hfree⟩ := Nat.find_spec hexists
    have hfirst : ∀ k, 2 ≤ k → k < Nat.find hexists →
        T.toLowercase (candidate (splitName name).1 (splitName name).2 k) ∈ taken := by
      intro k hk hlt
      by_contra hout
      exact Nat.find_min hexists hlt ⟨hk, by omega, hout⟩
    refine ⟨_, fun turns hturns => ?_, hfree, listable_candidate h _, ?_⟩
    · rw [unique, if_pos hin]
      exact numbered_eq hm (by omega) (by omega) hfirst hfree
    · refine iff_of_false ?_ (not_not.mpr hin)
      intro heq
      exact candidate_ne _ (heq.trans (splitName_append name).symm)
  · exact ⟨name, fun turns _ => if_neg hin, hin, h, iff_of_true rfl hin⟩

theorem listNames_after (T : Tables) (taken names : List Str)
    (hlen : taken.length + names.length ≤ 500) :
    ∃ listed, (∀ turns, 500 ≤ turns → listNames T turns taken names = some listed) ∧
      listed.length = names.length ∧ (listed.map T.toLowercase).Nodup ∧
      (∀ s ∈ listed, T.toLowercase s ∉ taken ∧ Listable T s) ∧
      ∀ (i : ℕ) s name, listed[i]? = some s → names[i]? = some name →
        (s = crocName T name ↔ T.toLowercase (crocName T name) ∉ taken ∧
          ∀ j < i, ∀ s', listed[j]? = some s' → T.toLowercase s' ≠
          T.toLowercase (crocName T name)) := by
  induction names generalizing taken with
  | nil => exact ⟨[], fun _ _ => rfl, rfl, by simp, by simp, by simp⟩
  | cons name names ih =>
    rw [List.length_cons] at hlen
    obtain ⟨s, hs, hout, hlist, hkeeps⟩ :=
      unique_spec (listable_crocName T name) (by omega : taken.length < 500)
    obtain ⟨listed, hlisted, hlength, hnodup, hall, hkept⟩ :=
      ih (T.toLowercase s :: taken) (by rw [List.length_cons]; omega)
    refine ⟨s :: listed, ?_, ?_, ?_, ?_, ?_⟩
    · intro turns hturns
      simp only [listNames, hs turns hturns, hlisted turns hturns, Option.bind_eq_bind,
        Option.bind_some, Option.pure_def]
    · rw [List.length_cons, List.length_cons, hlength]
    · rw [List.map_cons, List.nodup_cons]
      refine ⟨fun hmem => ?_, hnodup⟩
      obtain ⟨s', hs', heq⟩ := List.mem_map.mp hmem
      exact (hall s' hs').1 (heq ▸ List.mem_cons_self)
    · rw [List.forall_mem_cons]
      refine ⟨⟨hout, hlist⟩, fun s' hs' => ⟨fun hmem => (hall s' hs').1 ?_, (hall s' hs').2⟩⟩
      exact List.mem_cons_of_mem _ hmem
    · intro i s₁ name₁ hs₁ hname₁
      cases i with
      | zero =>
        obtain rfl := Option.some.inj hs₁
        obtain rfl := Option.some.inj hname₁
        rw [hkeeps]
        simp
      | succ i =>
        rw [List.getElem?_cons_succ] at hs₁ hname₁
        rw [hkept i s₁ name₁ hs₁ hname₁, List.mem_cons, not_or]
        constructor
        · rintro ⟨⟨hne, hfree⟩, hbefore⟩
          refine ⟨hfree, fun j hj s' hs' => ?_⟩
          cases j with
          | zero =>
            obtain rfl := Option.some.inj hs'
            exact Ne.symm hne
          | succ j => exact hbefore j (by omega) s' hs'
        · rintro ⟨hfree, hbefore⟩
          refine ⟨⟨?_, hfree⟩, fun j hj s' hs' => ?_⟩
          · exact Ne.symm (hbefore 0 (by omega) s rfl)
          · exact hbefore (j + 1) (by omega) s' hs'

theorem Listable.getLast (h : Listable T s) : ∀ c ∈ s.getLast?, c ≠ '.' ∧ c ≠ ' ' := by
  intro c hc
  have hends := h.ends
  rw [endsBadly, Option.mem_def.mp hc] at hends
  simpa using hends

/-- The names that are listed are those that croc's receivers take, no two of them the same letter
case aside. A name is listed as it is exactly if none before it was listed so. -/
theorem listNames_spec (T : Tables) (names : List Str) (hlen : names.length ≤ 500) :
    ∃ listed, (∀ turns, 500 ≤ turns → listNames T turns [] names = some listed) ∧
      listed.length = names.length ∧ (listed.map T.toLowercase).Nodup ∧
      (∀ s ∈ listed, s ≠ [] ∧ crocName T s = s ∧
        (∀ c ∈ s, c ≠ ':' ∧ c ≠ '/' ∧ c ≠ '\\' ∧ prints c) ∧ (∀ c ∈ s.getLast?, c ≠ '.' ∧ c ≠ ' ') ∧
        ¬ reserved (T.toUppercase (s.takeWhile (· ≠ '.'))) ∧ T.toLowercase s ∉ hiddenNames) ∧
      ∀ (i : ℕ) s name, listed[i]? = some s → names[i]? = some name →
        (s = crocName T name ↔ ∀ j < i, ∀ s', listed[j]? = some s' →
          T.toLowercase s' ≠ T.toLowercase (crocName T name)) := by
  obtain ⟨listed, hlisted, hlength, hnodup, hall, hkept⟩ :=
    listNames_after T [] names (by simpa using hlen)
  refine ⟨listed, hlisted, hlength, hnodup, fun s hs => ?_, fun i s name hs hname => ?_⟩
  · have hlist := (hall s hs).2
    have hwritten := hlist.written
    rw [refused, Bool.or_eq_false_iff, decide_eq_false_iff_not] at hwritten
    refine ⟨hlist.ne_nil, hlist.crocName_eq, fun c hc => nameChar_eq_self (hlist.chars c hc),
      hlist.getLast, ?_, hwritten.2⟩
    rw [hwritten.1]
    exact Bool.false_ne_true
  · rw [hkept i s name hs hname]
    simp

/-- A name, and then the same in capitals. -/
theorem listNames_spec_capital :
    ∃ listed, listNames Case.ascii 500 [] [['a'], ['A']] = some listed ∧
    (listed.map Case.ascii.toLowercase).Nodup ∧ listed = [['a'], "A (2)".toList] := by
  obtain ⟨listed, hlisted, -, hnodup, -⟩ := listNames_spec Case.ascii [['a'], ['A']] (by decide)
  have heval : listNames Case.ascii 500 [] [['a'], ['A']] = some [['a'], "A (2)".toList] := by
    decide +kernel
  have h := hlisted 500 (Nat.le_refl _)
  exact ⟨listed, h, hnodup, Option.some.inj (h.symm.trans heval)⟩

/-- The number that a name is given may be the name of the next. -/
theorem first_renamed : ¬ ∀ names listed : List Str, names.length ≤ 500 →
    listNames Case.ascii 500 [] names = some listed →
    ∀ (i j : ℕ) name, i < j → names[i]? = some name → names[j]? = some name →
      (∀ k < i, names[k]? ≠ some name) → listed[i]? = some (crocName Case.ascii name) := by
  intro h
  have hlist : listNames Case.ascii 500 [] [['a'], ['a'], "a (2)".toList, "a (2)".toList] =
      some [['a'], "a (2)".toList, "a (2) (2)".toList, "a (2) (3)".toList] := by decide +kernel
  have hkeeps := h _ _ (by decide) hlist 2 3 "a (2)".toList (by decide) rfl rfl (by decide +kernel)
  exact absurd hkeeps (by decide +kernel)

end Unique

end Sukkula.Croc
