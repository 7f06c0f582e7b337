import Sukkula.Hub.Lines

/-! # One switch at a time

The adapter tasks of two commands for the same switch do not run at once. The
receive switch sees to it by itself: its commands hold the lock until their tasks
have ended. Discovery does as long as no command is cut off while its tasks run.
-/

namespace Sukkula.Hub

open Transition

namespace Tasks

variable {s s' : Tasks} {a : Act} {k : ℕ} {l : Lock} {cmd : SwitchCommand}

/-- No command is cut off while tasks of it run. -/
def NotCut (s : Tasks) (a : Act) : Prop :=
  ∀ k, a = .cutOff k → ∀ t ∈ s.running, t.owner ≠ k

/-- Who has the lock waits for every adapter task there is for it. -/
structure Kept (l : Lock) (s : Tasks) : Prop where
  owner : ∀ t ∈ s.running, ∃ cmd, s.given[t.owner]? = some cmd ∧
    (t.call = .startDiscovery → cmd = .startDiscovery)
  awaits : ∀ t ∈ s.running, ∀ cmd, s.given[t.owner]? = some cmd → cmd.lock = some l →
    (s.stage t.owner).Awaits

namespace Kept

theorem new (adapters : List (Protocol × Bool)) (settings file : Config.Settings) :
    Kept l (Tasks.new adapters settings file) := by
  constructor <;> simp [Tasks.new]

theorem give (h : Kept l s) (cmd : SwitchCommand) : Kept l (s.give cmd) := by
  have hne : ∀ t ∈ s.running, t.owner ≠ s.given.length := by
    intro t ht
    obtain ⟨c, hc, -⟩ := h.owner t ht
    exact (List.getElem?_eq_some_iff.mp hc).1.ne
  constructor
  · intro t ht
    rw [getElem?_give, if_neg (hne t ht)]
    exact h.owner t ht
  · intro t ht c hc hl
    rw [getElem?_give, if_neg (hne t ht)] at hc
    rw [show (s.give cmd).stage t.owner = s.stage t.owner from Function.update_of_ne (hne t ht) ..]
    exact h.awaits t ht c hc hl

/-- A step that moves one command, and leaves no task of it behind. -/
theorem of_update (h : Kept l s) (st : Stage) (ts : List AdapterTask)
    (hcmd : s.given[k]? = some cmd) (hgiven : s'.given = s.given)
    (hstage : s'.stage = Function.update s.stage k st) (hrun : s'.running = s.running ++ ts)
    (hold : cmd.lock = some l → ∀ t ∈ s.running, t.owner ≠ k)
    (hts : ∀ t ∈ ts, t.owner = k ∧ (t.call = .startDiscovery → cmd = .startDiscovery))
    (hst : ts = [] ∨ st.Awaits) : Kept l s' := by
  constructor
  · intro t ht
    rw [hrun] at ht
    rw [hgiven]
    rcases List.mem_append.mp ht with ht | ht
    · exact h.owner t ht
    · obtain ⟨rfl, hcall⟩ := hts t ht
      exact ⟨cmd, hcmd, hcall⟩
  · intro t ht c hc hl
    rw [hrun] at ht
    rw [hgiven] at hc
    rw [hstage]
    by_cases hk : t.owner = k
    · rw [hk, Function.update_self]
      rcases hst with hnil | hst
      · rw [hk, hcmd] at hc
        obtain rfl := Option.some.inj hc
        rw [hnil, List.append_nil] at ht
        exact absurd hk (hold hl t ht)
      · exact hst
    · rw [Function.update_of_ne hk]
      rcases List.mem_append.mp ht with ht | ht
      · exact h.awaits t ht c hc hl
      · exact absurd (hts t ht).1 hk

theorem ne_of_not_awaits (h : Kept l s) (hcmd : s.given[k]? = some cmd)
    (hk : ¬ (s.stage k).Awaits) (hl : cmd.lock = some l) : ∀ t ∈ s.running, t.owner ≠ k := by
  rintro t ht rfl
  exact hk (h.awaits t ht cmd hcmd hl)

theorem of_shape (h : Kept l s) (hcut : l = .discovery → NotCut s a) (hs : Shape s a s') :
    Kept l s' := by
  cases hs with
  | give cmd hs => exact hs ▸ h.give cmd
  | @settle k ok cmd ha hk hcmd hl hok hs =>
    subst hs
    refine h.of_update (.answered ok) [] hcmd rfl rfl (List.append_nil _).symm ?_
      (by simp) (Or.inl rfl)
    exact h.ne_of_not_awaits hcmd (by rw [hk]; exact id)
  | @queue k l' cmd ha hk hcmd hl hs =>
    subst hs
    refine h.of_update .waiting [] hcmd rfl rfl (List.append_nil _).symm ?_ (by simp) (Or.inl rfl)
    exact h.ne_of_not_awaits hcmd (by rw [hk]; exact id)
  | @inside k l' cmd ts st hcmd hl hin hhead hwhy hst hgiven hstage hline hrun hts hawaits =>
    apply h.of_update st ts hcmd hgiven hstage hrun _ hts hawaits
    intro hl
    rcases hwhy with hwhy | hwhy
    · exact h.ne_of_not_awaits hcmd hwhy hl
    · exact hwhy
  | @leave k l' cmd ok hcmd hl' hin hwhy hok hgiven hstage hline hrun =>
    apply h.of_update (.answered ok) [] hcmd hgiven hstage
      (by rw [hrun, List.append_nil]) _ (by simp)
      (Or.inl rfl)
    intro hl
    rcases hwhy with hwhy | hwhy | ⟨ha, hd⟩
    · exact h.ne_of_not_awaits hcmd hwhy hl
    · exact hwhy
    · exact hcut (Option.some.inj (hl.symm.trans (hd ▸ hl'))) k ha
  | answer i hs =>
    subst hs
    exact ⟨fun t ht => h.owner t (List.mem_of_mem_eraseIdx ht),
      fun t ht => h.awaits t (List.mem_of_mem_eraseIdx ht)⟩

end Kept

/-- The adapter tasks for a lock are all of one command. -/
def Exclusive (l : Lock) (s : Tasks) : Prop :=
  ∀ t ∈ s.running, ∀ t' ∈ s.running, ∀ cmd cmd', s.given[t.owner]? = some cmd →
    s.given[t'.owner]? = some cmd' → cmd.lock = some l → cmd'.lock = some l → t.owner = t'.owner

theorem exclusive_of_kept (hi : Lined s) (h : Kept l s) : Exclusive l s := by
  intro t ht t' ht' cmd cmd' hc hc' hl hl'
  have hhead := hi.head t.owner l cmd (h.awaits t ht cmd hc hl).inside hc hl
  have hhead' := hi.head t'.owner l cmd' (h.awaits t' ht' cmd' hc' hl').inside hc' hl'
  exact Option.some.inj (hhead.symm.trans hhead')

/-- A stop is asked for after the starts that were given before it. -/
def StartThenStop (c d : SwitchCommand) : Prop := c = .startDiscovery ∧ d = .stopDiscovery

/-- The starts of the adapters that are still running were given after every stop that was
answered. -/
theorem start_after_stop (hk : Kept .discovery s) (ht : Turns StartThenStop s)
    (hstop : s.given[k]? = some .stopDiscovery) (hans : s.stage k = .answered true) :
    ∀ t ∈ s.running, t.call = .startDiscovery → k < t.owner := by
  intro t hmem hcall
  obtain ⟨cmd, hcmd, hstart⟩ := hk.owner t hmem
  obtain rfl := hstart hcall
  rcases lt_trichotomy k t.owner with hlt | heq | hgt
  · exact hlt
  · rw [heq, hcmd] at hstop
    cases hstop
  · have haw := hk.awaits t hmem _ hcmd rfl
    obtain ⟨ok, hok⟩ := ht.done t.owner k _ _ hgt hcmd hstop ⟨rfl, rfl⟩ hans
    rw [hok] at haw
    exact haw.elim

section Runs

variable {adapters : List (Protocol × Bool)} {settings file : Config.Settings} {as : List Act}

theorem lined_of_run (hrun : exec step (new adapters settings file) as = some s) : Lined s :=
  exec_invariant (fun _ _ _ h hs => h.step hs) (Lined.new adapters settings file) hrun

theorem kept_of_run (hrun : exec step (new adapters settings file) as = some s)
    (hcut : Along step (fun s a => l = .discovery → NotCut s a) (new adapters settings file) as) :
    Kept l s := by
  have h := exec_invariant_along (I := fun s => Lined s ∧ Kept l s)
    (fun s a s' h hcut hs => ⟨h.1.step hs, h.2.of_shape hcut (shape_of_move h.1 (move_of_step hs))⟩)
    ⟨Lined.new adapters settings file, Kept.new adapters settings file⟩ hcut hrun
  exact h.2

theorem turns_of_run {R : SwitchCommand → SwitchCommand → Prop}
    (hR : ∀ c d l, R c d → d.lock = some l → c.lock = some l) (hR' : ∀ c d, R c d → d.lock ≠ none)
    (hrun : exec step (new adapters settings file) as = some s)
    (hturn : Along step (InTurn R) (new adapters settings file) as) : Turns R s := by
  have h := exec_invariant_along (I := fun s => Lined s ∧ Turns R s)
    (fun s a s' h hturn hs =>
      ⟨h.1.step hs, h.2.of_shape h.1 hR hR' hturn (shape_of_move h.1 (move_of_step hs))⟩)
    ⟨Lined.new adapters settings file, Turns.new adapters settings file⟩ hturn hrun
  exact h.2

/-- The receive switch always keeps its commands apart. Discovery does in a run that cuts none off
while its tasks run; if each stop asks after the starts given before it, then none of these starts
still runs once it was answered. -/
theorem one_switch_at_a_time (hrun : exec step (new adapters settings file) as = some s) :
    Exclusive .state s ∧
    (Along step NotCut (new adapters settings file) as → Exclusive .discovery s ∧
      (Along step (InTurn StartThenStop) (new adapters settings file) as →
        ∀ k, s.given[k]? = some .stopDiscovery → s.stage k = .answered true →
          ∀ t ∈ s.running, t.call = .startDiscovery → k < t.owner)) := by
  have hi := lined_of_run hrun
  constructor
  · apply exclusive_of_kept hi (kept_of_run hrun _)
    exact (along_of_forall (G := fun _ => True) (by simp)).mono fun s a _ hl => by cases hl
  · intro hcut
    have hk := kept_of_run (l := .discovery) hrun (hcut.mono fun s a h _ => h)
    refine ⟨exclusive_of_kept hi hk, fun hturn k hstop hans => ?_⟩
    have ht := turns_of_run (by rintro c d l ⟨rfl, rfl⟩ hl; exact hl)
      (by rintro c d ⟨rfl, rfl⟩; simp [SwitchCommand.lock]) hrun hturn
    exact start_after_stop hk ht hstop hans

end Runs

/-- A start and a stop after each other, and then a start and the receive switch at once. -/
def startStopStart : List Act :=
  [.give .startDiscovery, .poll 0, .give .stopDiscovery, .poll 1, .enter 0, .answer 0, .joined 0,
    .enter 1, .answer 0, .joined 1, .give .startDiscovery, .poll 2, .enter 2,
    .give (.setReceiving true), .poll 3, .enter 3]

theorem inTurn_of_ne_poll {R : SwitchCommand → SwitchCommand → Prop} (h : ∀ k, a ≠ .poll k) :
    InTurn R s a :=
  fun _ k _ _ ha => absurd ha (h k)

theorem inTurn_of_ne_stop (h : ∀ k, a = .poll k → s.given[k]? ≠ some .stopDiscovery) :
    InTurn StartThenStop s a := by
  rintro j k c d ha - - hd ⟨-, rfl⟩
  exact absurd hd (h k ha)

theorem one_switch_at_a_time_once : ∃ s,
    exec step (new [(.localSend, true)] {} {}) startStopStart = some s ∧
    s.running = [⟨2, 0, .startDiscovery⟩, ⟨3, 0, .startReceiving⟩] ∧ s.stage 1 = .answered true ∧
    Exclusive .state s ∧ Exclusive .discovery s ∧
    ∀ t ∈ s.running, t.call = .startDiscovery → 1 < t.owner := by
  have hrun : exec step (new [(.localSend, true)] {} {}) startStopStart = some _ := rfl
  have hcut : Along step NotCut (new [(.localSend, true)] {} {}) startStopStart :=
    (along_of_forall (G := fun a => ∀ k, a ≠ .cutOff k) (by simp [startStopStart])).mono
      fun s a h k ha => absurd ha (h k)
  have hturn : Along step (InTurn StartThenStop) (new [(.localSend, true)] {} {})
      startStopStart := by
    refine .cons (inTurn_of_ne_poll (by simp)) rfl ?_
    refine .cons (inTurn_of_ne_stop (by rintro k ⟨⟩; decide)) rfl ?_
    refine .cons (inTurn_of_ne_poll (by simp)) rfl ?_
    refine .cons ?_ rfl ?_
    · rintro j k c d ⟨⟩ hjk - - -
      obtain rfl : j = 0 := by omega
      decide
    iterate 7 refine .cons (inTurn_of_ne_poll (by simp)) rfl ?_
    refine .cons (inTurn_of_ne_stop (by rintro k ⟨⟩; decide)) rfl ?_
    iterate 2 refine .cons (inTurn_of_ne_poll (by simp)) rfl ?_
    refine .cons (inTurn_of_ne_stop (by rintro k ⟨⟩; decide)) rfl ?_
    refine .cons (inTurn_of_ne_poll (by simp)) rfl trivial
  have h := one_switch_at_a_time hrun
  have hd := h.2 hcut
  exact ⟨_, hrun, rfl, rfl, h.1, hd.1, hd.2 hturn 1 rfl rfl⟩

/-- Four starts of fifteen seconds at most each, and a fifth that is cut off at its limit of sixty.
Then a stop. -/
def cutOffAtTheLimit : List Act :=
  [.give .startDiscovery, .give .startDiscovery, .give .startDiscovery, .give .startDiscovery,
    .give .startDiscovery, .poll 0, .poll 1, .poll 2, .poll 3, .poll 4,
    .enter 0, .answer 0, .joined 0, .enter 1, .answer 0, .joined 1, .enter 2, .answer 0, .joined 2,
    .enter 3, .answer 0, .joined 3, .enter 4, .cutOff 4, .give .stopDiscovery, .poll 5, .enter 5]

/-- The start that was cut off goes on beside the stop, and after it. -/
theorem start_beside_stop : ∃ s s',
    exec step (new [(.localSend, true)] {} {}) cutOffAtTheLimit = some s ∧
    ¬ Exclusive .discovery s ∧ exec step s [.answer 1, .joined 5] = some s' ∧ s'.given[5]? =
    some .stopDiscovery ∧ s'.stage 5 = .answered true ∧
    (∀ j, 5 < j → s'.given[j]? ≠ some .startDiscovery) ∧ ∃ t ∈ s'.running, t.call =
    .startDiscovery ∧ t.owner < 5 := by
  refine ⟨_, _, rfl, fun h => ?_, rfl, rfl, rfl, fun j hj => ?_, ⟨4, 0, .startDiscovery⟩, ?_⟩
  · have :=
      h ⟨4, 0, .startDiscovery⟩ (by decide) ⟨5, 0, .stopDiscovery⟩ (by decide) _ _ rfl rfl rfl rfl
    simp at this
  · rw [List.getElem?_eq_none (by exact hj)]
    simp
  · decide

-- A stop that asks before the start given before it is answered first, and the start runs after it.
example : ∃ s, exec step (new [(.localSend, true)] {} {})
      [.give .startDiscovery, .give .stopDiscovery, .poll 1, .enter 1, .answer 0,
        .joined 1, .poll 0, .enter 0] = some s ∧
    s.stage 1 = .answered true ∧ s.running = [⟨0, 0, .startDiscovery⟩] :=
  ⟨_, rfl, rfl, rfl⟩

end Tasks

end Sukkula.Hub
