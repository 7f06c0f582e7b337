import Sukkula.Library.Str

/-! # Upper and lower case

A string's case as Unicode maps it: character by character, but for a capital
sigma, which is a final one where a word ends. The tables are those of any version
of Unicode. A character that is neither cased nor ignored where case is looked at
keeps what is before it apart from what is after it.
-/

namespace Sukkula.Case

/-- The mappings of characters, and the properties that tell where a word ends. -/
structure Tables where
  lower : Char → Str
  upper : Char → Str
  -- `Cased`
  cased : Char → Bool
  -- `Case_Ignorable`
  ignorable : Char → Bool
  lower_ascii : ∀ c, c.toNat < 128 → lower c = [c.toLower]
  upper_ascii : ∀ c, c.toNat < 128 → upper c = [c.toUpper]
  cased_ascii : ∀ c, c.toNat < 128 → cased c = c.isAlpha
  ignorable_ascii : ∀ c, c.toNat < 128 → ignorable c =
    decide (c.toNat ∈ [0x27, 0x2E, 0x3A, 0x5E, 0x60])

namespace Tables

variable (T : Tables)

/-- Whether a cased character comes next, ignorable ones aside. -/
def thenCased (s : Str) : Bool := ((s.dropWhile T.ignorable).head?.map T.cased).getD false

def lowerIn (before rest : Str) (c : Char) : Str :=
  if c = 'Σ' then [if T.thenCased before && !T.thenCased rest then 'ς' else 'σ'] else T.lower c

/-- Lowercase, after the characters `before`, the last of them first. -/
def lowerAfter : Str → Str → Str
  | _, [] => []
  | before, c :: rest => T.lowerIn before rest c ++ lowerAfter (c :: before) rest

def toLowercase (s : Str) : Str := T.lowerAfter [] s

def toUppercase (s : Str) : Str := s.flatMap T.upper

/-- Neither cased nor ignored, and of one case. -/
structure Barrier (c : Char) : Prop where
  not_cased : T.cased c = false
  not_ignorable : T.ignorable c = false
  lower : T.lower c = [c]
  ne_sigma : c ≠ 'Σ'

variable {T} {c : Char}

theorem thenCased_append (h : T.Barrier c) (s t : Str) :
    T.thenCased (s ++ c :: t) = T.thenCased s := by
  induction s with
  | nil => simp [thenCased, h.not_ignorable, h.not_cased]
  | cons d s ih =>
    unfold thenCased at ih ⊢
    rw [List.cons_append]
    cases hd : T.ignorable d with
    | true => simpa [hd] using ih
    | false => simp [hd]

theorem lowerAfter_barrier_before (h : T.Barrier c) (before pre s : Str) :
    T.lowerAfter (pre ++ c :: before) s = T.lowerAfter pre s := by
  induction s generalizing pre with
  | nil => rfl
  | cons d s ih =>
    have hrest := ih (d :: pre)
    rw [List.cons_append] at hrest
    rw [lowerAfter, lowerAfter, hrest]
    simp only [lowerIn, thenCased_append h]

theorem lowerAfter_append_barrier (h : T.Barrier c) (before s t : Str) :
    T.lowerAfter before (s ++ c :: t) = T.lowerAfter before s ++ c :: T.toLowercase t := by
  induction s generalizing before with
  | nil =>
    have hrest := lowerAfter_barrier_before h before [] t
    rw [List.nil_append] at hrest
    change T.lowerIn before t c ++ T.lowerAfter (c :: before) t = _
    rw [lowerIn, if_neg h.ne_sigma, h.lower, hrest]
    rfl
  | cons d s ih =>
    rw [List.cons_append, lowerAfter, lowerAfter, ih, List.append_assoc]
    simp only [lowerIn, thenCased_append h]

theorem toLowercase_barrier (h : T.Barrier c) (s t : Str) :
    T.toLowercase (s ++ c :: t) = T.toLowercase s ++ c :: T.toLowercase t :=
  lowerAfter_append_barrier h [] s t

theorem toLowercase_barriers {s : Str} (h : ∀ c ∈ s, T.Barrier c) (t : Str) :
    T.toLowercase (s ++ t) = s ++ T.toLowercase t := by
  induction s with
  | nil => rfl
  | cons c s ih =>
    rw [List.forall_mem_cons] at h
    have hc := toLowercase_barrier h.1 [] (s ++ t)
    rw [List.nil_append] at hc
    rw [List.cons_append, hc, ih h.2]
    rfl

theorem barrier_of_ascii (hc : c.toNat < 128) (halpha : c.isAlpha = false)
    (hout : c.toNat ∉ [0x27, 0x2E, 0x3A, 0x5E, 0x60]) : T.Barrier c := by
  have hlower : c.toLower = c := by
    have hcased : (c.isUpper || c.isLower) = false := halpha
    have hup : decide (c.val ≥ 'A'.val ∧ c.val ≤ 'Z'.val) = false :=
      (Bool.or_eq_false_iff.mp hcased).1
    exact dif_neg (of_decide_eq_false hup)
  refine ⟨?_, ?_, ?_, ?_⟩
  · rw [T.cased_ascii c hc, halpha]
  · rw [T.ignorable_ascii c hc]
    exact decide_eq_false hout
  · rw [T.lower_ascii c hc, hlower]
  · rintro rfl
    exact absurd hc (by decide)

theorem mem_toUppercase {s : Str} (hupper : T.upper c = [c]) (h : c ∈ s) : c ∈ T.toUppercase s :=
  List.mem_flatMap.mpr ⟨c, h, by simp [hupper]⟩

end Tables

/-- The characters of ASCII have a case, no others. -/
def ascii : Tables where
  lower c := [c.toLower]
  upper c := [c.toUpper]
  cased := Char.isAlpha
  ignorable c := decide (c.toNat ∈ [0x27, 0x2E, 0x3A, 0x5E, 0x60])
  lower_ascii _ _ := rfl
  upper_ascii _ _ := rfl
  cased_ascii _ _ := rfl
  ignorable_ascii _ _ := rfl

end Sukkula.Case
