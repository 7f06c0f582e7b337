import Sukkula.Hub.Exclusion

/-! # The order of the switch commands

A command for the receive switch or the settings takes effect when it has the
lock, and gets in line for the lock when its task first runs. Where the tasks
first run in the order of their commands, the last command wins. Nothing makes
them run in that order.
-/

namespace Sukkula.Hub

open Config Transition

/-- Past the point where a command for the receive switch takes effect. -/
def Stage.Took : Stage → Prop
  | .stopping | .switching | .answered true => True
  | _ => False

namespace Tasks

variable {s s' : Tasks} {a : Act} {k : ℕ} {cmd : SwitchCommand}

def BothSwitch (c d : SwitchCommand) : Prop := c.lock = some .state ∧ d.lock = some .state

/-- The state is what the last of the commands that took effect made it. -/
structure InEffect (s : Tasks) : Prop where
  stopping : ∀ k, s.stage k = .stopping → (∃ v, s.given[k]? = some (.setSettings v)) ∧
    s.receiving = true
  receiving : ∀ k on, s.given[k]? = some (.setReceiving on) → (s.stage k).Took →
    (∀ j on', k < j → s.given[j]? = some (.setReceiving on') → ¬ (s.stage j).Took) →
    s.receiving = on
  settings : ∀ k v, s.given[k]? = some (.setSettings v) → (s.stage k).Took →
    ∃ v', v.validate = .ok v' ∧
    ((∀ j w, k < j → s.given[j]? = some (.setSettings w) → ¬ (s.stage j).Took) →
      s.settings = v' ∧ (s.file = v' ∨ ∃ j, s.stage j = .answered false))

/-- While one is first in line, none that was given after it has taken effect. -/
theorem not_took_of_head (hi : Lined s) (ht : Turns BothSwitch s)
    (hhead : (s.line .state).head? = some k) (hin : (s.stage k).InLine)
    (hcmd : s.given[k]? = some cmd) (hl : cmd.lock = some .state) {j : ℕ} {c : SwitchCommand}
    (hj : k < j) (hc : s.given[j]? = some c) (hlc : c.lock = some .state) : ¬ (s.stage j).Took := by
  intro htook
  by_cases hins : (s.stage j).Inside
  · have := hi.head j .state c hins hc hlc
    exact hj.ne (Option.some.inj (hhead.symm.trans this))
  · have hans : s.stage j = .answered true := by
      cases hst : s.stage j with
      | answered ok =>
        cases ok with
        | true => rfl
        | false => rw [hst] at htook; exact htook.elim
      | unknown | spawned | waiting | writing => rw [hst] at htook; exact htook.elim
      | stopping | switching => rw [hst] at hins; exact absurd trivial hins
    obtain ⟨ok, hok⟩ := ht.done k j cmd c hj hcmd hc ⟨hl, hlc⟩ hans
    exact hin.ne_answered ok hok

namespace InEffect

theorem new (adapters : List (Protocol × Bool)) (settings file : Settings) :
    InEffect (Tasks.new adapters settings file) := by
  constructor <;> simp [Tasks.new]

theorem give (h : InEffect s) (hi : Lined s) (cmd : SwitchCommand) : InEffect (s.give cmd) := by
  have hlast : s.stage s.given.length = .unknown := (hi.unknown _).mpr le_rfl
  have hstage : ∀ {j : ℕ}, j ≠ s.given.length → (s.give cmd).stage j = s.stage j :=
    fun hj => Function.update_of_ne hj _ _
  have hnew : (s.give cmd).stage s.given.length = .spawned := Function.update_self ..
  have hgiven : ∀ {j : ℕ}, j ≠ s.given.length → (s.give cmd).given[j]? = s.given[j]? :=
    fun hj => by rw [getElem?_give, if_neg hj]
  have hlater : ∀ {k : ℕ} {P : SwitchCommand → Prop},
      (∀ j c, k < j → (s.give cmd).given[j]? = some c → P c → ¬ ((s.give cmd).stage j).Took) →
      ∀ j c, k < j → s.given[j]? = some c → P c → ¬ (s.stage j).Took := by
    intro k P hl j c hj hc hp
    have hne : j ≠ s.given.length := (List.getElem?_eq_some_iff.mp hc).1.ne
    rw [← hstage hne]
    exact hl j c hj (by rw [hgiven hne, hc]) hp
  have hold : ∀ {k : ℕ}, ((s.give cmd).stage k).Took → k ≠ s.given.length := by
    rintro k hk rfl
    rw [hnew] at hk
    exact hk
  constructor
  · intro k hk
    have hne : k ≠ s.given.length := hold (by rw [hk]; trivial)
    rw [hstage hne] at hk
    rw [hgiven hne]
    exact h.stopping k hk
  · intro k on hcmd hk hl
    have hne := hold hk
    rw [hstage hne] at hk
    rw [hgiven hne] at hcmd
    refine h.receiving k on hcmd hk fun j on' hj hc => ?_
    refine hlater (P := fun c => ∃ on, c = .setReceiving on) ?_ j _ hj hc ⟨on', rfl⟩
    rintro j c hj hc ⟨on, rfl⟩
    exact hl j on hj hc
  · intro k v hcmd hk
    have hne := hold hk
    rw [hstage hne] at hk
    rw [hgiven hne] at hcmd
    obtain ⟨v', hv, himp⟩ := h.settings k v hcmd hk
    refine ⟨v', hv, fun hl => ?_⟩
    obtain ⟨hs, hf⟩ := himp fun j w hj hc => by
      refine hlater (P := fun c => ∃ w, c = .setSettings w) ?_ j _ hj hc ⟨w, rfl⟩
      rintro j c hj hc ⟨w, rfl⟩
      exact hl j w hj hc
    refine ⟨hs, hf.imp_right fun ⟨j, hj⟩ => ⟨j, ?_⟩⟩
    rw [hstage (fun e => by rw [e, hlast] at hj; cases hj), hj]

/-- A step that moves one command and is not where it takes effect. -/
theorem of_update (h : InEffect s) (st : Stage) (hcmd : s.given[k]? = some cmd)
    (hk : ∀ ok, s.stage k ≠ .answered ok) (hst : st ≠ .stopping)
    (htook : cmd.lock = some .state → (st.Took ↔ (s.stage k).Took)) (hgiven : s'.given = s.given)
    (hstage : s'.stage = Function.update s.stage k st) (hreceiving : s'.receiving = s.receiving)
    (hsettings : s'.settings = s.settings) (hfile : s'.file = s.file ∨ st = .answered false) :
    InEffect s' := by
  have hiff : ∀ {j : ℕ} {c : SwitchCommand}, s.given[j]? = some c → c.lock = some .state →
      ((s'.stage j).Took ↔ (s.stage j).Took) := by
    intro j c hc hl
    rw [hstage]
    by_cases hj : j = k
    · subst hj
      rw [hcmd] at hc
      obtain rfl := Option.some.inj hc
      rw [Function.update_self]
      exact htook hl
    · rw [Function.update_of_ne hj]
  constructor
  · intro j hj
    rw [hstage] at hj
    rw [hgiven, hreceiving]
    rcases update_cases hj with ⟨-, e⟩ | ⟨-, hj⟩
    · exact absurd e.symm hst
    · exact h.stopping j hj
  · intro j on hc hj hl
    rw [hgiven] at hc
    rw [hreceiving]
    refine h.receiving j on hc ((hiff hc rfl).mp hj) fun i on' hji hi ht => ?_
    exact hl i on' hji (by rw [hgiven, hi]) ((hiff hi rfl).mpr ht)
  · intro j v hc hj
    rw [hgiven] at hc
    obtain ⟨v', hv, himp⟩ := h.settings j v hc ((hiff hc rfl).mp hj)
    refine ⟨v', hv, fun hl => ?_⟩
    obtain ⟨hs, hf⟩ := himp fun i w hji hi ht =>
      hl i w hji (by rw [hgiven, hi]) ((hiff hi rfl).mpr ht)
    refine ⟨hsettings.trans hs, ?_⟩
    rcases hfile with hfile | rfl
    · refine hf.imp hfile.trans fun ⟨i, hi⟩ => ⟨i, ?_⟩
      rw [hstage, Function.update_of_ne (fun e : i = k => hk false (e ▸ hi)), hi]
    · exact Or.inr ⟨k, by rw [hstage, Function.update_self]⟩

theorem setReceiving (h : InEffect s) (hi : Lined s) (ht : Turns BothSwitch s) {on : Bool}
    (hk : s.stage k = .waiting) (hcmd : s.given[k]? = some (.setReceiving on))
    (hhead : (s.line .state).head? = some k) : InEffect (s.setReceiving k on) := by
  have hstage : ∀ {j : ℕ}, j ≠ k → (s.setReceiving k on).stage j = s.stage j :=
    fun hj => Function.update_of_ne hj _ _
  have hself : (s.setReceiving k on).stage k = .switching := Function.update_self ..
  have hne : ∀ {j : ℕ} {v : Settings}, s.given[j]? = some (.setSettings v) → j ≠ k := by
    rintro j v hc rfl
    rw [hcmd] at hc
    cases hc
  constructor
  · intro j hj
    have hjk : j ≠ k := by
      rintro rfl
      rw [hself] at hj
      cases hj
    rw [hstage hjk] at hj
    obtain ⟨⟨v, hc⟩, -⟩ := h.stopping j hj
    have := hi.head j .state _ (by rw [hj]; trivial) hc rfl
    exact absurd (Option.some.inj (this.symm.trans hhead)) hjk
  · intro j on' hc hj hl
    by_cases hjk : j = k
    · subst hjk
      rw [show (s.setReceiving j on).given[j]? = s.given[j]? from rfl, hcmd] at hc
      cases hc
      rfl
    · rcases lt_or_gt_of_ne hjk with hlt | hgt
      · exact absurd (by rw [hself]; trivial) (hl k on hlt hcmd)
      · rw [hstage hjk] at hj
        exact absurd hj (not_took_of_head hi ht hhead (by rw [hk]; trivial) hcmd rfl hgt hc rfl)
  · intro j v hc hj
    rw [hstage (hne hc)] at hj
    obtain ⟨v', hv, himp⟩ := h.settings j v hc hj
    refine ⟨v', hv, fun hl => ?_⟩
    obtain ⟨hs, hf⟩ := himp fun i w hji hci => hstage (hne hci) ▸ hl i w hji hci
    refine ⟨hs, hf.imp_right fun ⟨i, hi⟩ => ⟨i, ?_⟩⟩
    rw [hstage (fun e => by rw [e, hk] at hi; cases hi), hi]

theorem wrote (h : InEffect s) (hi : Lined s) (ht : Turns BothSwitch s)
    {v valid : Settings} (st : Stage) (hk : s.stage k = .writing)
    (hcmd : s.given[k]? = some (.setSettings v)) (hv : v.validate = .ok valid) (hst : st.Took)
    (hstop : st = .stopping → s.receiving = true) (hgiven : s'.given = s.given)
    (hstage : s'.stage = Function.update s.stage k st) (hreceiving : s'.receiving = s.receiving)
    (hsettings : s'.settings = valid) (hfile : s'.file = valid) : InEffect s' := by
  have hhead := hi.head k .state _ (by rw [hk]; trivial) hcmd rfl
  have hne : ∀ {j : ℕ} {on : Bool}, s.given[j]? = some (.setReceiving on) → j ≠ k := by
    rintro j on hc rfl
    rw [hcmd] at hc
    cases hc
  constructor
  · intro j hj
    rw [hstage] at hj
    rw [hgiven, hreceiving]
    rcases update_cases hj with ⟨rfl, e⟩ | ⟨-, hj⟩
    · exact ⟨⟨v, hcmd⟩, hstop e.symm⟩
    · exact h.stopping j hj
  · intro j on hc hj hl
    rw [hgiven] at hc
    rw [hstage, Function.update_of_ne (hne hc)] at hj
    rw [hreceiving]
    refine h.receiving j on hc hj fun i on' hji hci hti => ?_
    refine hl i on' hji (by rw [hgiven, hci]) ?_
    rwa [hstage, Function.update_of_ne (hne hci)]
  · intro j w hc hj
    rw [hgiven] at hc
    by_cases hjk : j = k
    · subst hjk
      rw [hcmd] at hc
      cases hc
      exact ⟨valid, hv, fun _ => ⟨hsettings, Or.inl hfile⟩⟩
    · rw [hstage, Function.update_of_ne hjk] at hj
      obtain ⟨w', hw, -⟩ := h.settings j w hc hj
      refine ⟨w', hw, fun hl => ?_⟩
      rcases lt_or_gt_of_ne hjk with hlt | hgt
      · refine absurd ?_ (hl k v hlt (by rw [hgiven, hcmd]))
        rwa [hstage, Function.update_self]
      · exact absurd hj (not_took_of_head hi ht hhead (by rw [hk]; trivial) hcmd rfl hgt hc rfl)

theorem of_move (h : InEffect s) (hi : Lined s) (ht : Turns BothSwitch s) (hm : Move s a s') :
    InEffect s' := by
  cases hm with
  | give cmd => exact h.give hi cmd
  | invalid hk hcmd =>
    exact h.of_update (.answered false) hcmd (by simp [hk]) (by simp)
      (by simp [hk, Stage.Took]) rfl rfl
      rfl rfl (Or.inr rfl)
  | other hk hcmd =>
    exact h.of_update (.answered true) hcmd (by simp [hk]) (by simp)
      (by simp [SwitchCommand.lock]) rfl
      rfl rfl rfl (Or.inl rfl)
  | queue hk hcmd hl =>
    exact h.of_update .waiting hcmd (by simp [hk]) (by simp)
      (by simp [hk, Stage.Took]) rfl rfl rfl rfl
      (Or.inl rfl)
  | setReceiving hk hcmd hhead => exact h.setReceiving hi ht hk hcmd hhead
  | setSettings hk hcmd hhead =>
    exact h.of_update .writing hcmd (by simp [hk]) (by simp)
      (by simp [hk, Stage.Took]) rfl rfl rfl rfl
      (Or.inl rfl)
  | discovery hk hcmd hl hhead hf =>
    exact h.of_update .switching hcmd (by simp [hk]) (by simp)
      (by simp [hl]) rfl rfl rfl rfl (Or.inl rfl)
  | restart hk hcmd hv hon =>
    exact h.wrote hi ht .stopping hk hcmd hv trivial (fun _ => hon) rfl rfl rfl rfl rfl
  | saved hk hcmd hv =>
    exact h.wrote hi ht (.answered true) hk hcmd hv trivial (by simp) rfl rfl rfl rfl rfl
  | failed hk hcmd =>
    exact h.of_update (.answered false) hcmd (by simp [hk]) (by simp)
      (by simp [hk, Stage.Took]) rfl rfl
      rfl rfl (Or.inr rfl)
  | stopped hk hcmd hnone =>
    exact h.of_update .switching hcmd (by simp [hk]) (by simp) (by simp [hk, Stage.Took]) rfl rfl
      (h.stopping _ hk).2.symm rfl (Or.inl rfl)
  | joined hk hcmd hl hnone =>
    exact h.of_update (.answered true) hcmd (by simp [hk]) (by simp)
      (by simp [hk, Stage.Took]) rfl rfl
      rfl rfl (Or.inl rfl)
  | giveUp hk hcmd hl hhead =>
    exact h.of_update (.answered false) hcmd (by simp [hk]) (by simp)
      (by simp [hk, Stage.Took]) rfl rfl
      rfl rfl (Or.inl rfl)
  | cutOff hk hcmd hl =>
    exact h.of_update (.answered false) hcmd (by rcases hk with hk | hk <;> simp [hk]) (by simp)
      (by simp [hl]) rfl rfl rfl rfl (Or.inl rfl)
  | answer i => exact ⟨h.stopping, h.receiving, h.settings⟩

end InEffect

section Runs

variable {adapters : List (Protocol × Bool)} {settings file : Settings} {as : List Act}

theorem inEffect_of_run (hrun : exec step (new adapters settings file) as = some s)
    (hturn : Along step (InTurn BothSwitch) (new adapters settings file) as) : InEffect s := by
  have h := exec_invariant_along (I := fun s => Lined s ∧ Turns BothSwitch s ∧ InEffect s)
    (fun s a s' h hturn hs => ?_)
    ⟨Lined.new adapters settings file, Turns.new adapters settings file,
      InEffect.new adapters settings file⟩ hturn hrun
  · exact h.2.2
  · obtain ⟨hi, ht, he⟩ := h
    have hm := move_of_step hs
    refine ⟨hi.step hs, ht.of_shape hi ?_ ?_ hturn (shape_of_move hi hm), he.of_move hi ht hm⟩
    · rintro c d l ⟨hc, hd⟩ hl
      rw [hc, ← hd, hl]
    · rintro c d ⟨-, hd⟩
      simp [hd]

/-- In a run whose commands for the receive switch ask for it in the order they were given, the last
of them is what counts once all were answered with success. -/
theorem last_command_counts (hrun : exec step (new adapters settings file) as = some s)
    (hturn : Along step (InTurn BothSwitch) (new adapters settings file) as)
    (hok : ∀ k < s.given.length, s.stage k = .answered true) :
    (∀ (k : ℕ) (on : Bool), s.given[k]? = some (.setReceiving on) →
      (∀ (j : ℕ) on', k < j → s.given[j]? ≠ some (.setReceiving on')) → s.receiving = on) ∧
    ∀ (k : ℕ) v, s.given[k]? = some (.setSettings v) →
      (∀ (j : ℕ) w, k < j → s.given[j]? ≠ some (.setSettings w)) →
      ∃ v', v.validate = .ok v' ∧ s.settings = v' ∧ s.file = v' := by
  have h := inEffect_of_run hrun hturn
  have hi := lined_of_run hrun
  have htook : ∀ {k : ℕ} {c : SwitchCommand}, s.given[k]? = some c → (s.stage k).Took := by
    intro k c hc
    rw [hok k (List.getElem?_eq_some_iff.mp hc).1]
    trivial
  constructor
  · intro k on hc hlast
    exact h.receiving k on hc (htook hc) fun j on' hj hcj => absurd hcj (hlast j on' hj)
  · intro k v hc hlast
    obtain ⟨v', hv, himp⟩ := h.settings k v hc (htook hc)
    obtain ⟨hs, hf⟩ := himp fun j w hj hcj => absurd hcj (hlast j w hj)
    refine ⟨v', hv, hs, hf.resolve_right ?_⟩
    rintro ⟨j, hj⟩
    have := hok j (hi.lt_length (by rw [hj]; simp))
    rw [hj] at this
    cases this

end Runs

/-- On, off again, and then settings, each task first run before the next command is given. -/
def onOffSettings : List Act :=
  [.give (.setReceiving true), .poll 0, .give (.setReceiving false), .poll 1,
    .give (.setSettings Switches.withoutLocalSend), .poll 2, .enter 0, .answer 0,
    .joined 0, .enter 1, .answer 0, .joined 1, .enter 2, .wrote 2 true true]

theorem last_command_counts_once : ∃ s,
    exec step (new [(.localSend, true)] {} {}) onOffSettings = some s ∧ s.receiving = false ∧
    ∃ v, Switches.withoutLocalSend.validate = .ok v ∧ s.settings = v ∧ s.file = v := by
  obtain ⟨s, hrun, hgiven, hok⟩ : ∃ s,
      exec step (new [(.localSend, true)] {} {}) onOffSettings = some s ∧
      s.given = [.setReceiving true, .setReceiving false, .setSettings Switches.withoutLocalSend] ∧
      ∀ k < 3, s.stage k = .answered true := ⟨_, rfl, rfl, by decide⟩
  have hturn : Along step (InTurn BothSwitch) (new [(.localSend, true)] {} {}) onOffSettings := by
    refine .cons (inTurn_of_ne_poll (by simp)) rfl ?_
    refine .cons ?_ rfl ?_
    · rintro j k c d ⟨⟩ hjk
      omega
    refine .cons (inTurn_of_ne_poll (by simp)) rfl ?_
    refine .cons ?_ rfl ?_
    · rintro j k c d ⟨⟩ hjk - - -
      obtain rfl : j = 0 := by omega
      decide
    refine .cons (inTurn_of_ne_poll (by simp)) rfl ?_
    refine .cons ?_ rfl ?_
    · rintro j k c d ⟨⟩ hjk - - -
      obtain rfl | rfl : j = 0 ∨ j = 1 := by omega
      · decide
      · decide
    iterate 7 refine .cons (inTurn_of_ne_poll (by simp)) rfl ?_
    exact .cons (inTurn_of_ne_poll (by simp)) rfl trivial
  obtain ⟨hr, hs⟩ := last_command_counts hrun hturn (by rw [hgiven]; exact hok)
  rw [hgiven] at hr hs
  refine ⟨s, hrun, hr 1 false rfl ?_, hs 2 _ rfl ?_⟩
  · intro j on hj
    rcases Nat.lt_or_ge j 3 with h3 | h3
    · obtain rfl : j = 2 := by omega
      simp
    · rw [List.getElem?_eq_none (by exact h3)]
      simp
  · intro j w hj
    rw [List.getElem?_eq_none (by exact hj)]
    simp

/-- On, and off again at once: the second task runs first. -/
def offFirst : List Act :=
  [.give (.setReceiving true), .give (.setReceiving false), .poll 1, .poll 0, .enter 1, .answer 0,
    .joined 1, .enter 0, .answer 0, .joined 0]

/-- Receiving is left on by the command before the last. -/
theorem left_receiving : ∃ s, exec step (new [(.localSend, true)] {} {}) offFirst = some s ∧
    s.given = [.setReceiving true, .setReceiving false] ∧ s.stage 0 = .answered true ∧
    s.stage 1 = .answered true ∧ s.receiving = true :=
  ⟨_, rfl, rfl, rfl, rfl, rfl⟩

end Tasks

end Sukkula.Hub
