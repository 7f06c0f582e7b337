import Mathlib.Algebra.BigOperators.Group.List.Basic
import Mathlib.Algebra.GroupWithZero.Nat
import Mathlib.Data.List.Basic
import Mathlib.Data.List.Infix
import Mathlib.Logic.Function.Basic

/-! # Executable transition systems

A system is a partial step function on states. `exec` runs it along a list of
actions, so a concrete run can be evaluated. Invariants are proved one step at
a time, for every run or for the runs whose steps all meet a side condition.
Histories are lists with the newest happening first, and `y :: l <:+ h` says
that `y` happened when `l` was the past. Where a state has a place for each of
many tasks, a step sets one of them.
-/

namespace Sukkula.Transition

variable {σ α : Type*} {step : σ → α → Option σ}

/-- The state after the actions of a run, in order, if each is enabled in its turn. -/
def exec (step : σ → α → Option σ) : σ → List α → Option σ
  | s, [] => some s
  | s, a :: as => (step s a).bind fun s' => exec step s' as

@[simp] theorem exec_nil (s : σ) : exec step s [] = some s := rfl

theorem exec_cons_eq_some {s s' : σ} {a : α} {as : List α} :
    exec step s (a :: as) = some s' ↔ ∃ t, step s a = some t ∧ exec step t as = some s' :=
  Option.bind_eq_some_iff

theorem exec_append {s : σ} {as bs : List α} :
    exec step s (as ++ bs) = (exec step s as).bind fun t => exec step t bs := by
  induction as generalizing s with
  | nil => rfl
  | cons a as ih =>
    change (step s a).bind _ = ((step s a).bind _).bind _
    rw [Option.bind_assoc]
    exact congrArg _ (funext fun t => ih)

theorem exec_append_of {s t u : σ} {as bs : List α} (h : exec step s as = some t)
    (h' : exec step t bs = some u) : exec step s (as ++ bs) = some u := by
  rw [exec_append, h]
  exact h'

/-- Every step of the run, taken from the state it meets, satisfies `G`. -/
def Along (step : σ → α → Option σ) (G : σ → α → Prop) : σ → List α → Prop
  | _, [] => True
  | s, a :: as => G s a ∧ ∀ s', step s a = some s' → Along step G s' as

/-- Whether a run meets a condition can be tried. -/
instance Along.decidable {G : σ → α → Prop} [∀ s a, Decidable (G s a)] :
    ∀ (as : List α) (s : σ), Decidable (Along step G s as)
  | [], _ => isTrue trivial
  | a :: as, s =>
    have : DecidablePred fun t => Along step G t as := Along.decidable as
    inferInstanceAs (Decidable (G s a ∧ ∀ t ∈ step s a, Along step G t as))

/-- An invariant kept by the steps that meet `G` holds after every run whose steps meet it. -/
theorem exec_invariant_along {G : σ → α → Prop} {I : σ → Prop}
    (hstep : ∀ s a s', I s → G s a → step s a = some s' → I s')
    {s s' : σ} {as : List α} (hI : I s) (hG : Along step G s as)
    (h : exec step s as = some s') : I s' := by
  induction as generalizing s with
  | nil => exact Option.some.inj h ▸ hI
  | cons a as ih =>
    obtain ⟨t, ht, hr⟩ := exec_cons_eq_some.mp h
    exact ih (hstep _ _ _ hI hG.1 ht) (hG.2 _ ht) hr

theorem Along.cons {G : σ → α → Prop} {s t : σ} {a : α} {as : List α} (hG : G s a)
    (hs : step s a = some t) (ht : Along step G t as) : Along step G s (a :: as) := by
  refine ⟨hG, fun s' hs' => ?_⟩
  obtain rfl := Option.some.inj (hs.symm.trans hs')
  exact ht

theorem Along.mono {G H : σ → α → Prop} (h : ∀ s a, G s a → H s a) {s : σ} {as : List α}
    (hG : Along step G s as) : Along step H s as := by
  induction as generalizing s with
  | nil => trivial
  | cons a as ih => exact ⟨h s a hG.1, fun s' hs => ih (hG.2 s' hs)⟩

theorem along_of_forall {G : α → Prop} {s : σ} {as : List α} (h : ∀ a ∈ as, G a) :
    Along step (fun _ a => G a) s as := by
  induction as generalizing s with
  | nil => trivial
  | cons a as ih => exact ⟨h a (by simp), fun _ _ => ih fun b hb => h b (by simp [hb])⟩

theorem exec_invariant {I : σ → Prop} (hstep : ∀ s a s', I s → step s a = some s' → I s')
    {s s' : σ} {as : List α} (hI : I s) (h : exec step s as = some s') : I s' := by
  induction as generalizing s with
  | nil => exact Option.some.inj h ▸ hI
  | cons a as ih =>
    obtain ⟨t, ht, hr⟩ := exec_cons_eq_some.mp h
    exact ih (hstep _ _ _ hI ht) hr

/-- Where every step pays for itself out of a potential, a run costs no more than there was. -/
theorem exec_cost {I : σ → Prop} {cost : α → ℕ} {Φ : σ → ℕ}
    (hstep : ∀ s a s', I s → step s a = some s' → I s' ∧ cost a + Φ s' ≤ Φ s)
    {s s' : σ} {as : List α} (hI : I s) (h : exec step s as = some s') :
    (as.map cost).sum + Φ s' ≤ Φ s := by
  induction as generalizing s with
  | nil =>
    obtain rfl := Option.some.inj h
    simp
  | cons a as ih =>
    obtain ⟨t, ht, hr⟩ := exec_cons_eq_some.mp h
    obtain ⟨hI', hcost⟩ := hstep _ _ _ hI ht
    have := ih hI' hr
    rw [List.map_cons, List.sum_cons]
    omega

section Two

variable {τ β : Type*} {f : σ → α → Option σ} {g : τ → β → Option τ}

/-- Where every step of the one is some steps of the other, so is every run. -/
theorem exec_simulation {R : σ → τ → Prop}
    (hstep : ∀ s t a s', R s t → f s a = some s' → ∃ bs t', exec g t bs = some t' ∧ R s' t')
    {s s' : σ} {t : τ} {as : List α} (hR : R s t) (h : exec f s as = some s') :
    ∃ bs t', exec g t bs = some t' ∧ R s' t' := by
  induction as generalizing s t with
  | nil =>
    obtain rfl := Option.some.inj h
    exact ⟨[], t, rfl, hR⟩
  | cons a as ih =>
    obtain ⟨s₁, hs, hr⟩ := exec_cons_eq_some.mp h
    obtain ⟨bs, t₁, ht, hR₁⟩ := hstep _ _ _ _ hR hs
    obtain ⟨bs', t', ht', hR'⟩ := ih hR₁ hr
    exact ⟨bs ++ bs', t', exec_append_of ht ht', hR'⟩

/-- Two systems side by side: a step of the one or of the other. -/
def both (f : σ → α → Option σ) (g : τ → β → Option τ) : σ × τ → α ⊕ β → Option (σ × τ)
  | (s, t), .inl a => (f s a).map fun s' => (s', t)
  | (s, t), .inr b => (g t b).map fun t' => (s, t')

theorem exec_both {s s' : σ × τ} {as : List (α ⊕ β)} :
    exec (both f g) s as = some s' ↔
      exec f s.1 (as.filterMap Sum.getLeft?) = some s'.1 ∧
        exec g s.2 (as.filterMap Sum.getRight?) = some s'.2 := by
  induction as generalizing s with
  | nil =>
    simp only [exec_nil, List.filterMap_nil, Option.some.injEq]
    exact Prod.ext_iff
  | cons a as ih =>
    rw [exec_cons_eq_some]
    cases a with
    | inl a =>
      constructor
      · rintro ⟨t, ht, hr⟩
        obtain ⟨u, hu, rfl⟩ := Option.map_eq_some_iff.mp ht
        obtain ⟨hf, hg⟩ := ih.mp hr
        exact ⟨exec_cons_eq_some.mpr ⟨u, hu, hf⟩, hg⟩
      · rintro ⟨hf, hg⟩
        obtain ⟨u, hu, hf⟩ := exec_cons_eq_some.mp hf
        exact ⟨(u, s.2), Option.map_eq_some_iff.mpr ⟨u, hu, rfl⟩, ih.mpr ⟨hf, hg⟩⟩
    | inr b =>
      constructor
      · rintro ⟨t, ht, hr⟩
        obtain ⟨u, hu, rfl⟩ := Option.map_eq_some_iff.mp ht
        obtain ⟨hf, hg⟩ := ih.mp hr
        exact ⟨hf, exec_cons_eq_some.mpr ⟨u, hu, hg⟩⟩
      · rintro ⟨hf, hg⟩
        obtain ⟨u, hu, hg⟩ := exec_cons_eq_some.mp hg
        exact ⟨(s.1, u), Option.map_eq_some_iff.mpr ⟨u, hu, rfl⟩, ih.mpr ⟨hf, hg⟩⟩

end Two

/-- A property of every happening and its past, checked as the history grows. -/
theorem suffix_cons_forall {β : Type*} {P : β → List β → Prop} {x : β} {h : List β}
    (hx : P x h) (hh : ∀ y l, y :: l <:+ h → P y l) : ∀ y l, y :: l <:+ x :: h → P y l := by
  intro y l hs
  rcases List.suffix_cons_iff.mp hs with he | hs'
  · obtain ⟨rfl, rfl⟩ := List.cons.inj he
    exact hx
  · exact hh y l hs'

section Update

variable {ι ν : Type*} [DecidableEq ι] {f : ι → ν} {i j : ι} {a b : ν}

theorem update_cases (h : Function.update f i a j = b) : (j = i ∧ b = a) ∨ (j ≠ i ∧ f j = b) := by
  by_cases hj : j = i
  · subst hj
    rw [Function.update_self] at h
    exact Or.inl ⟨rfl, h.symm⟩
  · rw [Function.update_of_ne hj] at h
    exact Or.inr ⟨hj, h⟩

theorem update_ne (hj : j ≠ i) (h : f j = b) : Function.update f i a j = b :=
  (Function.update_of_ne hj _ _).trans h

theorem update_self : Function.update f i a i = a := Function.update_self _ _ _

end Update

end Sukkula.Transition
