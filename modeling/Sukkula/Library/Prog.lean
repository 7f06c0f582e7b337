import Mathlib.Logic.Relation
import Sukkula.Library.Transition

/-! # Programs that call an operating system

A program is a tree of calls, each continued by whatever is answered. The
machine answers a call by making a choice, and the environment acts between any
two calls. The state after each step of a run is what a kill at that point
leaves. `Holds` reads an invariant and a postcondition off the program text:
the invariant is true at every point of every run, the postcondition at its end.
-/

namespace Sukkula

/-- A program whose calls `c` are answered in `Ans c`. -/
inductive Prog {C : Type} (Ans : C → Type) (α : Type) : Type
  | ret (a : α)
  | call (c : C) (k : Ans c → Prog Ans α)

namespace Prog

variable {C : Type} {Ans : C → Type} {α β : Type}

protected def bind : Prog Ans α → (α → Prog Ans β) → Prog Ans β
  | ret a, f => f a
  | call c k, f => call c fun r => (k r).bind f

instance : Monad (Prog Ans) where
  pure := ret
  bind := Prog.bind

def ask (c : C) : Prog Ans (Ans c) := call c ret

@[simp] theorem pure_eq (a : α) : (pure a : Prog Ans α) = ret a := rfl

@[simp] theorem ret_bind (a : α) (f : α → Prog Ans β) : (ret a : Prog Ans α) >>= f = f a := rfl

@[simp] theorem call_bind (c : C) (k : Ans c → Prog Ans α) (f : α → Prog Ans β) :
    call c k >>= f = call c fun r => k r >>= f := rfl

@[simp] theorem ask_bind (c : C) (f : Ans c → Prog Ans β) : ask c >>= f = call c f := rfl

def result : Prog Ans α → Option α
  | ret a => some a
  | call _ _ => none

theorem eq_ret {p : Prog Ans α} {a : α} (h : p.result = some a) : p = ret a := by
  cases p with
  | ret b => rw [Option.some.inj h]
  | call => cases h

theorem run_lift_bind {ε : Type} (p : Prog Ans α) (f : α → ExceptT ε (Prog Ans) β) :
    (ExceptT.lift p >>= f).run = p >>= fun a => (f a).run := by
  induction p with
  | ret a => rfl
  | call c k ih => exact congrArg (Prog.call c) (funext fun a => ih a)

end Prog

/-- What answers the calls of a program, and what else happens to the state. -/
structure Machine {C : Type} (Ans : C → Type) (S L A : Type) where
  os : (c : C) → S → L → Option (Ans c × S)
  env : S → A → Option S

/-- A step: the answer to the next call, by a choice, or an act of the environment. -/
inductive Label (L A : Type)
  | answer (l : L)
  | env (a : A)

namespace Machine

open Transition

variable {C S L A α β ε : Type} {Ans : C → Type} (m : Machine Ans S L A)

def step : Prog Ans α × S → Label L A → Option (Prog Ans α × S)
  | (.call c k, s), .answer l => (m.os c s l).map fun r => (k r.1, r.2)
  | (.ret _, _), .answer _ => none
  | (p, s), .env a => (m.env s a).map fun s' => (p, s')

theorem step_env (p : Prog Ans α) (s : S) (a : A) :
    m.step (p, s) (.env a) = (m.env s a).map fun s' => (p, s') := by
  cases p <;> rfl

variable {m} in
theorem exec_ret_of_any [DecidableEq α] {p : Prog Ans α} {s : S} {l : List (Label L A)} {r : α}
    {P : S → Prop} [DecidablePred P]
    (h : ((exec m.step (p, s) l).any fun c => c.1.result = some r ∧ P c.2) = true) :
    ∃ s', exec m.step (p, s) l = some (.ret r, s') ∧ P s' := by
  obtain ⟨⟨q, s'⟩, hc, hq⟩ := (Option.any_eq_true ..).mp h
  obtain ⟨hr, hP⟩ := of_decide_eq_true hq
  exact ⟨s', Prog.eq_ret hr ▸ hc, hP⟩

variable {m} in
/-- Where every call can be answered, every program can be run to its end. -/
theorem exists_exec_ret {G : Label L A → Prop}
    (h : ∀ c s, ∃ l a s', G (.answer l) ∧ m.os c s l = some (a, s')) (p : Prog Ans α) (s : S) :
    ∃ ls r s', (∀ l ∈ ls, G l) ∧ exec m.step (p, s) ls = some (.ret r, s') := by
  induction p generalizing s with
  | ret a => exact ⟨[], a, s, by simp, rfl⟩
  | call c k ih =>
    obtain ⟨l, a, t, hl, ho⟩ := h c s
    obtain ⟨ls, r, s', hls, hr⟩ := ih a t
    refine ⟨.answer l :: ls, r, s', List.forall_mem_cons.mpr ⟨hl, hls⟩, ?_⟩
    exact exec_cons_eq_some.mpr ⟨(k a, t), by simp [step, ho], hr⟩

section Can

variable {m} {G : Label L A → Prop} {Q : α → S → Prop} {R : β → S → Prop} {p : Prog Ans α} {s : S}

variable (m G) in
/-- The program can be run to its end, by steps that meet the guard. -/
def Can (Q : α → S → Prop) (p : Prog Ans α) (s : S) : Prop :=
  ∃ ls a s', (∀ l ∈ ls, G l) ∧ exec m.step (p, s) ls = some (.ret a, s') ∧ Q a s'

theorem Can.ret {a : α} (h : Q a s) : m.Can G Q (.ret a) s := ⟨[], a, s, by simp, rfl, h⟩

theorem Can.call {c : C} {k : Ans c → Prog Ans α} {l : L} {a : Ans c} {t : S} (hl : G (.answer l))
    (ho : m.os c s l = some (a, t)) (h : m.Can G Q (k a) t) : m.Can G Q (.call c k) s := by
  obtain ⟨ls, b, u, hls, he, hQ⟩ := h
  refine ⟨.answer l :: ls, b, u, List.forall_mem_cons.mpr ⟨hl, hls⟩, ?_, hQ⟩
  exact exec_cons_eq_some.mpr ⟨(k a, t), by simp [step, ho], he⟩

theorem exec_bind {f : α → Prog Ans β} {ls : List (Label L A)} {s' : S} {a : α}
    (h : exec m.step (p, s) ls = some (.ret a, s')) :
    exec m.step (p >>= f, s) ls = some (f a, s') := by
  induction ls generalizing p s with
  | nil =>
    obtain ⟨rfl, rfl⟩ := Prod.mk.inj (Option.some.inj h)
    rfl
  | cons l ls ih =>
    obtain ⟨⟨q, t⟩, hs, hr⟩ := exec_cons_eq_some.mp h
    refine exec_cons_eq_some.mpr ⟨(q >>= f, t), ?_, ih hr⟩
    cases l with
    | answer l =>
      cases p with
      | ret => cases hs
      | call c k =>
        obtain ⟨r, ho, he⟩ := Option.map_eq_some_iff.mp hs
        cases he
        exact Option.map_eq_some_iff.mpr ⟨r, ho, rfl⟩
    | env a =>
      rw [step_env] at hs ⊢
      obtain ⟨u, hu, he⟩ := Option.map_eq_some_iff.mp hs
      cases he
      exact Option.map_eq_some_iff.mpr ⟨_, hu, rfl⟩

theorem Can.bind {f : α → Prog Ans β} (h : m.Can G Q p s)
    (hf : ∀ a s', Q a s' → m.Can G R (f a) s') : m.Can G R (p >>= f) s := by
  obtain ⟨ls, a, s', hls, he, hQ⟩ := h
  obtain ⟨ls', b, t, hls', he', hR⟩ := hf a s' hQ
  refine ⟨ls ++ ls', b, t, ?_, exec_append_of (exec_bind he) he', hR⟩
  exact fun l hl => (List.mem_append.mp hl).elim (hls l) (hls' l)

end Can

variable (G : S → Label L A → Prop)

/-- One act of the environment that the guard lets through. -/
def Acts (s s' : S) : Prop := ∃ a, G s (.env a) ∧ m.env s a = some s'

/-- The assertion survives every act of the environment. -/
def Stable (P : S → Prop) : Prop := ∀ s a s', P s → G s (.env a) → m.env s a = some s' → P s'

/-- Whatever happens from here on, `I` stays true, and `Q` holds of the result. -/
def Holds (I : S → Prop) (Q : α → S → Prop) : Prog Ans α → S → Prop
  | .ret a, s => ∀ s', Relation.ReflTransGen (m.Acts G) s s' → I s' ∧ Q a s'
  | .call c k, s => ∀ s', Relation.ReflTransGen (m.Acts G) s s' → I s' ∧
      ∀ l a s'', G s' (.answer l) → m.os c s' l = some (a, s'') → Holds I Q (k a) s''

namespace Holds

variable {m} {G} {I : S → Prop} {Q Q' : α → S → Prop} {R : β → S → Prop} {p p' : Prog Ans α}
  {s s' : S} {P : S → Prop}

theorem inv (h : m.Holds G I Q p s) : I s := by
  cases p with
  | ret => exact (h s .refl).1
  | call => exact (h s .refl).1

theorem acts (h : m.Holds G I Q p s) (ha : m.Acts G s s') : m.Holds G I Q p s' := by
  cases p with
  | ret => exact fun s'' hs => h s'' (.head ha hs)
  | call => exact fun s'' hs => h s'' (.head ha hs)

theorem result {a : α} (h : m.Holds G I Q (.ret a) s) : Q a s := (h s .refl).2

theorem of_step {l : Label L A} (h : m.Holds G I Q p s) (hg : G s l)
    (hs : m.step (p, s) l = some (p', s')) : m.Holds G I Q p' s' := by
  cases l with
  | answer l =>
    cases p with
    | ret => cases hs
    | call c k =>
      obtain ⟨r, hr, he⟩ := Option.map_eq_some_iff.mp hs
      obtain ⟨rfl, rfl⟩ := Prod.mk.inj he
      exact (h s .refl).2 l r.1 r.2 hg hr
  | env a =>
    rw [step_env] at hs
    obtain ⟨t, ht, he⟩ := Option.map_eq_some_iff.mp hs
    obtain ⟨rfl, rfl⟩ := Prod.mk.inj he
    exact h.acts ⟨a, hg, ht⟩

/-- What holds of a program holds along every run whose steps meet the guard. -/
theorem of_exec {ls : List (Label L A)} (h : m.Holds G I Q p s)
    (hg : Along m.step (fun c l => G c.2 l) (p, s) ls)
    (hs : exec m.step (p, s) ls = some (p', s')) : m.Holds G I Q p' s' :=
  exec_invariant_along (I := fun c => m.Holds G I Q c.1 c.2)
    (fun _ _ _ hc hg hs => of_step hc hg hs) h hg hs

theorem ret_of {a : α} (hP : m.Stable G P) (hI : ∀ s, P s → I s) (hQ : ∀ s, P s → Q a s)
    (h : P s) : m.Holds G I Q (.ret a) s := by
  intro s' hs
  have h' : P s' := by
    induction hs with
    | refl => exact h
    | tail _ ha ih =>
      obtain ⟨a, hg, he⟩ := ha
      exact hP _ a _ ih hg he
  exact ⟨hI s' h', hQ s' h'⟩

/-- The rule for a call: the assertion before it survives the environment. -/
theorem call_of {c : C} {k : Ans c → Prog Ans α} (hP : m.Stable G P) (hI : ∀ s, P s → I s)
    (h : ∀ s l a s', P s → G s (.answer l) → m.os c s l = some (a, s') → m.Holds G I Q (k a) s')
    (hs : P s) : m.Holds G I Q (.call c k) s := by
  intro s' hr
  have h' : P s' := by
    induction hr with
    | refl => exact hs
    | tail _ ha ih =>
      obtain ⟨a, hg, he⟩ := ha
      exact hP _ a _ ih hg he
  exact ⟨hI s' h', fun l a s'' => h s' l a s'' h'⟩

section Alone

/-! Where there is no environment. -/

variable [IsEmpty A]

theorem ret_alone {a : α} (hI : I s) (hQ : Q a s) : m.Holds G I Q (.ret a) s :=
  ret_of (P := (· = s)) (fun _ a => isEmptyElim a) (by rintro _ rfl; exact hI)
    (by rintro _ rfl; exact hQ) rfl

theorem call_alone {c : C} {k : Ans c → Prog Ans α} (hI : I s)
    (h : ∀ l a s', G s (.answer l) → m.os c s l = some (a, s') → m.Holds G I Q (k a) s') :
    m.Holds G I Q (.call c k) s :=
  call_of (P := (· = s)) (fun _ a => isEmptyElim a) (by rintro _ rfl; exact hI)
    (by rintro _ l a s' rfl; exact h l a s') rfl

end Alone

/-- Sequencing, with everything that is known of the first result. -/
theorem bind_of {f : α → Prog Ans β} (h : m.Holds G I Q p s)
    (hf : ∀ a s, m.Holds G I Q (.ret a) s → m.Holds G I R (f a) s) :
    m.Holds G I R (p >>= f) s := by
  induction p generalizing s with
  | ret a => exact hf a s h
  | call c k ih =>
    intro s' hr
    obtain ⟨hI, hk⟩ := h s' hr
    exact ⟨hI, fun l a s'' hg ho => ih a (hk l a s'' hg ho)⟩

theorem bind {f : α → Prog Ans β} (h : m.Holds G I Q p s)
    (hf : ∀ a s, Q a s → m.Holds G I R (f a) s) : m.Holds G I R (p >>= f) s :=
  h.bind_of fun a s ha => hf a s ha.result

theorem mono (h : m.Holds G I Q p s) (hQ : ∀ a s, Q a s → Q' a s) : m.Holds G I Q' p s := by
  induction p generalizing s with
  | ret a => exact fun s' hr => ⟨(h s' hr).1, hQ a s' (h s' hr).2⟩
  | call c k ih =>
    intro s' hr
    obtain ⟨hI, hk⟩ := h s' hr
    exact ⟨hI, fun l a s'' hg ho => ih a (hk l a s'' hg ho)⟩

/-- What no step of the machine undoes is still true at the end. -/
theorem frame {J : S → Prop} (hos : ∀ c s l a s', J s → m.os c s l = some (a, s') → J s')
    (henv : ∀ s a s', J s → m.env s a = some s' → J s') (h : m.Holds G I Q p s) (hJ : J s) :
    m.Holds G I (fun a s => Q a s ∧ J s) p s := by
  have hacts : ∀ {s s' : S}, Relation.ReflTransGen (m.Acts G) s s' → J s → J s' := by
    intro s s' hs hJ
    induction hs with
    | refl => exact hJ
    | tail _ ha ih => exact ha.elim fun a ha => henv _ a _ ih ha.2
  induction p generalizing s with
  | ret a => exact fun s' hs => ⟨(h s' hs).1, (h s' hs).2, hacts hs hJ⟩
  | call c k ih =>
    intro s' hs
    obtain ⟨hI, hk⟩ := h s' hs
    exact ⟨hI, fun l a s'' hg ho => ih a (hk l a s'' hg ho) (hos c s' l a s'' (hacts hs hJ) ho)⟩

theorem adapt {ε' : Type} {Q : Except ε α → S → Prop} {R : Except ε' α → S → Prop} {f : ε → ε'}
    {x : ExceptT ε (Prog Ans) α} (h : m.Holds G I Q x.run s)
    (hQ : ∀ r s, Q r s → R (r.mapError f) s) : m.Holds G I R (x.adapt f).run s :=
  h.bind_of (f := fun r => .ret (r.mapError f)) fun r _ hr s' hs =>
    ⟨(hr s' hs).1, hQ r s' (hr s' hs).2⟩

theorem bind_lift {R : Except ε β → S → Prop} {f : α → ExceptT ε (Prog Ans) β}
    (h : m.Holds G I Q p s) (hf : ∀ a s, Q a s → m.Holds G I R (f a).run s) :
    m.Holds G I R (ExceptT.lift p >>= f).run s := by
  rw [Prog.run_lift_bind]
  exact h.bind hf

/-- Sequencing with early returns: an error of the first part is the error of the whole. -/
theorem bind_except {Q : Except ε α → S → Prop} {R : Except ε β → S → Prop}
    {x : ExceptT ε (Prog Ans) α} {f : α → ExceptT ε (Prog Ans) β} (h : m.Holds G I Q x.run s)
    (hok : ∀ a s, Q (.ok a) s → m.Holds G I R (f a).run s)
    (herr : ∀ e s, Q (.error e) s → R (.error e) s) : m.Holds G I R (x >>= f).run s := by
  refine h.bind_of (f := ExceptT.bindCont f) fun r s hr => ?_
  cases r with
  | ok a => exact hok a s hr.result
  | error e => exact fun s' hs => ⟨(hr s' hs).1, herr e s' (hr s' hs).2⟩

end Holds

end Machine

end Sukkula
