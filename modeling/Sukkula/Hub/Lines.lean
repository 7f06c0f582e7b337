import Sukkula.Hub.Tasks

/-! # The lines for the locks

Who is in line for a lock, and who has it. A step of the tasks is seen here as
far as the lines, the stages and the adapter tasks go, and the invariants of the
lines are proved over that.
-/

namespace Sukkula.Hub

open Transition

def Stage.Awaits : Stage → Prop
  | .stopping | .switching => True
  | _ => False

theorem Stage.Inside.inLine {st : Stage} (h : st.Inside) : st.InLine := by
  cases st <;> first | exact h.elim | trivial

theorem Stage.Awaits.inside {st : Stage} (h : st.Awaits) : st.Inside := by
  cases st <;> first | exact h.elim | trivial

theorem Stage.inLine_or (st : Stage) :
    st = .unknown ∨ st = .spawned ∨ st.InLine ∨ ∃ ok, st = .answered ok := by
  cases st with
  | answered ok => exact Or.inr (Or.inr (Or.inr ⟨ok, rfl⟩))
  | unknown => exact Or.inl rfl
  | spawned => exact Or.inr (Or.inl rfl)
  | _ => exact Or.inr (Or.inr (Or.inl trivial))

theorem Stage.InLine.ne_spawned {st : Stage} (h : st.InLine) : st ≠ .spawned := by
  rintro rfl
  exact h

theorem Stage.InLine.ne_answered {st : Stage} (h : st.InLine) (ok : Bool) : st ≠ .answered ok := by
  rintro rfl
  exact h

namespace Tasks

variable {s s' : Tasks} {a : Act} {k : ℕ} {l : Lock} {cmd : SwitchCommand}

/-- The lines hold the commands that are in line, each once, and who is inside is the first. -/
structure Lined (s : Tasks) : Prop where
  unknown : ∀ k, s.stage k = .unknown ↔ s.given.length ≤ k
  mem_line : ∀ l k, k ∈ s.line l ↔
    (s.stage k).InLine ∧ ∃ cmd, s.given[k]? = some cmd ∧ cmd.lock = some l
  nodup : ∀ l, (s.line l).Nodup
  head : ∀ k l cmd, (s.stage k).Inside → s.given[k]? = some cmd → cmd.lock = some l →
    (s.line l).head? = some k

inductive Shape (s : Tasks) (a : Act) (s' : Tasks) : Prop
  | give (cmd : SwitchCommand) (hs : s' = s.give cmd)
  | settle {k : ℕ} {ok : Bool} {cmd : SwitchCommand} (ha : a = .poll k) (hk : s.stage k = .spawned)
      (hcmd : s.given[k]? = some cmd) (hl : cmd.lock ≠ some .discovery)
      (hok : ok = true → cmd.lock = none) (hs : s' = s.setStage k (.answered ok))
  | queue {k : ℕ} {l : Lock} {cmd : SwitchCommand} (ha : a = .poll k) (hk : s.stage k = .spawned)
      (hcmd : s.given[k]? = some cmd) (hl : cmd.lock = some l) (hs : s' = s.queue l k)
  | inside {k : ℕ} {l : Lock} {cmd : SwitchCommand} {ts : List AdapterTask} (st : Stage)
      (hcmd : s.given[k]? = some cmd) (hl : cmd.lock = some l) (hin : (s.stage k).InLine)
      (hhead : (s.line l).head? = some k)
      (hwhy : ¬ (s.stage k).Awaits ∨ ∀ t ∈ s.running, t.owner ≠ k) (hst : st.Inside)
      (hgiven : s'.given = s.given) (hstage : s'.stage = Function.update s.stage k st)
      (hline : s'.line = s.line) (hrun : s'.running = s.running ++ ts)
      (hts : ∀ t ∈ ts, t.owner = k ∧ (t.call = .startDiscovery → cmd = .startDiscovery))
      (hawaits : ts = [] ∨ st.Awaits)
  | leave {k : ℕ} {l : Lock} {cmd : SwitchCommand} {ok : Bool} (hcmd : s.given[k]? = some cmd)
      (hl : cmd.lock = some l) (hin : (s.stage k).InLine)
      (hwhy : ¬ (s.stage k).Awaits ∨ (∀ t ∈ s.running, t.owner ≠ k) ∨
        (a = .cutOff k ∧ l = .discovery))
      (hok : ok = true → (s.line l).head? = some k) (hgiven : s'.given = s.given)
      (hstage : s'.stage = Function.update s.stage k (.answered ok))
      (hline : s'.line = Function.update s.line l ((s.line l).erase k))
      (hrun : s'.running = s.running)
  | answer (i : ℕ) (hs : s' = { s with running := s.running.eraseIdx i })

theorem running_each (s : Tasks) (k : ℕ) (f : Protocol → Bool → Option Call) :
    ∃ ts, (s.each k f).running = s.running ++ ts ∧
      ∀ t ∈ ts, t.owner = k ∧ ∃ p r, f p r = some t.call := by
  refine ⟨_, rfl, fun t ht => ?_⟩
  obtain ⟨⟨⟨p, r⟩, i⟩, -, h⟩ := List.mem_filterMap.mp ht
  obtain ⟨c, hc, rfl⟩ := Option.map_eq_some_iff.mp h
  exact ⟨rfl, p, r, hc⟩

theorem receiveCall_ne (settings : Config.Settings) (on : Bool) (p : Protocol) :
    receiveCall settings on p ≠ .startDiscovery := by
  rcases receiveCall_cases settings on p with ⟨h, -⟩ | h <;> simp [h]

/-- `set_receiving` goes on to wait for the tasks of the receivers. -/
theorem shape_setReceiving (on : Bool) (hcmd : s.given[k]? = some cmd) (hl : cmd.lock = some l)
    (hin : (s.stage k).InLine) (hhead : (s.line l).head? = some k)
    (hwhy : ¬ (s.stage k).Awaits ∨ ∀ t ∈ s.running, t.owner ≠ k) :
    Shape s a (s.setReceiving k on) := by
  obtain ⟨ts, hts, how⟩ := running_each { s with receiving := on } k fun protocol receives =>
    if receives then some (receiveCall s.settings on protocol) else none
  refine .inside .switching hcmd hl hin hhead hwhy trivial rfl rfl rfl hts (fun t ht => ?_)
    (Or.inr trivial)
  obtain ⟨ho, p, r, hc⟩ := how t ht
  refine ⟨ho, fun hstart => ?_⟩
  split_ifs at hc
  exact absurd (hstart ▸ Option.some.inj hc) (receiveCall_ne _ _ _)

theorem shape_of_move (h : Lined s) (hm : Move s a s') : Shape s a s' := by
  cases hm with
  | give cmd => exact .give cmd rfl
  | invalid hk hcmd => exact .settle rfl hk hcmd (by simp [SwitchCommand.lock]) (by simp) rfl
  | other hk hcmd => exact .settle rfl hk hcmd (by simp [SwitchCommand.lock]) (fun _ => rfl) rfl
  | queue hk hcmd hl => exact .queue rfl hk hcmd hl rfl
  | setReceiving hk hcmd hhead =>
    exact shape_setReceiving _ hcmd rfl (by rw [hk]; trivial) hhead (Or.inl (by rw [hk]; exact id))
  | setSettings hk hcmd hhead =>
    exact .inside .writing hcmd rfl (by rw [hk]; trivial) hhead (Or.inl (by rw [hk]; exact id))
      trivial rfl rfl rfl (List.append_nil _).symm (by simp) (Or.inl rfl)
  | @discovery k cmd f hk hcmd hl hhead hf =>
    obtain ⟨ts, hts, how⟩ := running_each s k f
    refine .inside .switching hcmd hl (by rw [hk]; trivial) hhead (Or.inl (by rw [hk]; exact id))
      trivial rfl rfl rfl hts (fun t ht => ?_) (Or.inr trivial)
    obtain ⟨ho, p, r, hc⟩ := how t ht
    exact ⟨ho, fun hstart => hf p r (hstart ▸ hc)⟩
  | @restart k settings valid replaced hk hcmd hv hon =>
    have hhead := h.head k .state _ (by rw [hk]; trivial) hcmd rfl
    obtain ⟨ts, hts, how⟩ := running_each { s with settings := valid, file := valid } k
      fun _ receives => if receives then some .stopReceiving else none
    refine .inside .stopping hcmd rfl (by rw [hk]; trivial) hhead (Or.inl (by rw [hk]; exact id))
      trivial rfl rfl rfl hts (fun t ht => ?_) (Or.inr trivial)
    obtain ⟨ho, p, r, hc⟩ := how t ht
    refine ⟨ho, fun hstart => ?_⟩
    split_ifs at hc
    rw [hstart] at hc
    cases hc
  | saved hk hcmd hv =>
    exact .leave hcmd rfl (by rw [hk]; trivial) (Or.inl (by rw [hk]; exact id))
      (fun _ => h.head _ .state _ (by rw [hk]; trivial) hcmd rfl) rfl rfl rfl rfl
  | failed hk hcmd =>
    exact .leave hcmd rfl (by rw [hk]; trivial) (Or.inl (by rw [hk]; exact id))
      (by simp) rfl rfl rfl
      rfl
  | stopped hk hcmd hnone =>
    exact shape_setReceiving true hcmd rfl (by rw [hk]; trivial)
      (h.head _ .state _ (by rw [hk]; trivial) hcmd rfl) (Or.inr hnone)
  | joined hk hcmd hl hnone =>
    exact .leave hcmd hl (by rw [hk]; trivial) (Or.inr (Or.inl hnone))
      (fun _ => h.head _ _ _ (by rw [hk]; trivial) hcmd hl) rfl rfl rfl rfl
  | giveUp hk hcmd hl hhead =>
    exact .leave hcmd hl (by rw [hk]; trivial) (Or.inl (by rw [hk]; exact id))
      (by simp) rfl rfl rfl rfl
  | cutOff hk hcmd hl =>
    refine .leave hcmd hl ?_ (Or.inr (Or.inr ⟨rfl, rfl⟩)) (by simp) rfl rfl rfl rfl
    rcases hk with hk | hk <;> rw [hk] <;> trivial
  | answer i => exact .answer i rfl

section Lined

theorem getElem?_give (cmd : SwitchCommand) (j : ℕ) :
    (s.give cmd).given[j]? = if j = s.given.length then some cmd else s.given[j]? := by
  rcases lt_trichotomy j s.given.length with hj | rfl | hj
  · rw [if_neg hj.ne]
    exact List.getElem?_append_left hj
  · rw [if_pos rfl]
    exact List.getElem?_concat_length
  · rw [if_neg hj.ne', List.getElem?_eq_none hj.le]
    exact List.getElem?_eq_none (by simpa [give, setStage] using hj)

namespace Lined

theorem lt_length (h : Lined s) (hk : s.stage k ≠ .unknown) : k < s.given.length :=
  not_le.mp fun hle => hk ((h.unknown k).mpr hle)

theorem new (adapters : List (Protocol × Bool)) (settings file : Config.Settings) :
    Lined (Tasks.new adapters settings file) where
  unknown k := by simp [Tasks.new]
  mem_line l k := by simp [Tasks.new, Stage.InLine]
  nodup l := by simp [Tasks.new]
  head k l cmd hin := by simp [Tasks.new, Stage.Inside] at hin

theorem give (h : Lined s) (cmd : SwitchCommand) : Lined (s.give cmd) := by
  have hlast : s.stage s.given.length = .unknown := (h.unknown _).mpr le_rfl
  constructor
  · intro k
    by_cases hk : k = s.given.length
    · subst hk
      simp [Tasks.give, setStage]
    · have := h.unknown k
      simp only [Tasks.give, setStage, Function.update_of_ne hk, List.length_append,
        List.length_singleton, this]
      omega
  · intro l k
    by_cases hk : k = s.given.length
    · subst hk
      have := h.mem_line l s.given.length
      simp only [hlast, Stage.InLine, false_and, iff_false] at this
      simpa [Tasks.give, setStage, Stage.InLine] using this
    · rw [getElem?_give, if_neg hk]
      simpa only [Tasks.give, setStage, Function.update_of_ne hk] using h.mem_line l k
  · exact h.nodup
  · intro k l c hin hc hl
    by_cases hk : k = s.given.length
    · subst hk
      simp [Tasks.give, setStage, Stage.Inside] at hin
    · rw [getElem?_give, if_neg hk] at hc
      simp only [Tasks.give, setStage, Function.update_of_ne hk] at hin
      exact h.head k l c hin hc hl

/-- A step that moves one command, and leaves the others where they are in the lines. -/
theorem of_update (h : Lined s) (st : Stage) (hcmd : s.given[k]? = some cmd)
    (hst : st ≠ .unknown) (hgiven : s'.given = s.given)
    (hstage : s'.stage = Function.update s.stage k st)
    (hmem : ∀ l j, j ≠ k → (j ∈ s'.line l ↔ j ∈ s.line l))
    (hself : ∀ l, k ∈ s'.line l ↔ st.InLine ∧ cmd.lock = some l) (hnodup : ∀ l, (s'.line l).Nodup)
    (hhead : ∀ l j, j ≠ k → (s.line l).head? = some j → (s'.line l).head? = some j)
    (hinside : st.Inside → ∀ l, cmd.lock = some l → (s'.line l).head? = some k) : Lined s' := by
  have hlt : k < s.given.length := (List.getElem?_eq_some_iff.mp hcmd).1
  constructor
  · intro j
    rw [hgiven, hstage]
    by_cases hj : j = k
    · subst hj
      simp only [Function.update_self, hst, false_iff, not_le, hlt]
    · rw [Function.update_of_ne hj]
      exact h.unknown j
  · intro l j
    rw [hgiven, hstage]
    by_cases hj : j = k
    · subst hj
      rw [hself l, Function.update_self, hcmd]
      simp
    · rw [hmem l j hj, Function.update_of_ne hj]
      exact h.mem_line l j
  · exact hnodup
  · intro j l c hin hc hl
    rw [hstage] at hin
    rw [hgiven] at hc
    by_cases hj : j = k
    · subst hj
      rw [Function.update_self] at hin
      rw [hcmd] at hc
      obtain rfl := Option.some.inj hc
      exact hinside hin l hl
    · rw [Function.update_of_ne hj] at hin
      exact hhead l j hj (h.head j l c hin hc hl)

theorem not_mem (h : Lined s) (hk : ¬ (s.stage k).InLine) (l : Lock) : k ∉ s.line l :=
  fun hm => hk ((h.mem_line l k).mp hm).1

theorem queue (h : Lined s) (hk : s.stage k = .spawned) (hcmd : s.given[k]? = some cmd)
    (hl : cmd.lock = some l) : Lined (s.queue l k) := by
  have hnot : ∀ l', k ∉ s.line l' := h.not_mem (by rw [hk]; exact id)
  apply h.of_update .waiting hcmd
  · simp
  · rfl
  · rfl
  · intro l' j hj
    by_cases hl' : l' = l
    · subst hl'
      simp [Tasks.queue, setStage, hj]
    · simp [Tasks.queue, setStage, Function.update_of_ne hl']
  · intro l'
    by_cases hl' : l' = l
    · subst hl'
      simp [Tasks.queue, setStage, Stage.InLine, hl]
    · have hne : ¬ l = l' := fun e => hl' e.symm
      simp [Tasks.queue, setStage, Function.update_of_ne hl', hnot l', hl, hne]
  · intro l'
    by_cases hl' : l' = l
    · subst hl'
      rw [show (s.queue l' k).line l' = s.line l' ++ [k] from Function.update_self ..]
      refine List.nodup_append.mpr ⟨h.nodup l', List.nodup_singleton k, ?_⟩
      rintro a ha b hb rfl
      exact hnot l' (List.mem_singleton.mp hb ▸ ha)
    · simpa [Tasks.queue, setStage, Function.update_of_ne hl'] using h.nodup l'
  · intro l' j _ hhead
    by_cases hl' : l' = l
    · subst hl'
      simp [Tasks.queue, setStage, hhead]
    · simpa [Tasks.queue, setStage, Function.update_of_ne hl'] using hhead
  · exact fun hin => hin.elim

theorem head?_erase {line : List ℕ} {j : ℕ} (hj : j ≠ k) (h : line.head? = some j) :
    (line.erase k).head? = some j := by
  cases line with
  | nil => cases h
  | cons i rest =>
    obtain rfl : i = j := Option.some.inj h
    rw [List.erase_cons_tail (by simpa using hj)]
    rfl

theorem leave {ok : Bool} (h : Lined s) (hcmd : s.given[k]? = some cmd) (hl : cmd.lock = some l)
    (hgiven : s'.given = s.given) (hstage : s'.stage = Function.update s.stage k (.answered ok))
    (hline : s'.line = Function.update s.line l ((s.line l).erase k)) : Lined s' := by
  have herase : ∀ l', s'.line l' = (s.line l').erase k ∨ s'.line l' = s.line l' ∧ l' ≠ l := by
    intro l'
    by_cases hl' : l' = l
    · subst hl'
      exact Or.inl (by rw [hline, Function.update_self])
    · exact Or.inr ⟨by rw [hline, Function.update_of_ne hl'], hl'⟩
  have hother : ∀ l', l' ≠ l → k ∉ s.line l' := by
    intro l' hl' hm
    obtain ⟨-, c, hc, hlc⟩ := (h.mem_line l' k).mp hm
    rw [hcmd] at hc
    obtain rfl := Option.some.inj hc
    exact hl' (Option.some.inj (hlc.symm.trans hl))
  apply h.of_update (.answered ok) hcmd (by simp) hgiven hstage
  · intro l' j hj
    rcases herase l' with he | ⟨he, -⟩ <;> rw [he]
    exact List.mem_erase_of_ne hj
  · intro l'
    simp only [Stage.InLine, false_and, iff_false]
    rcases herase l' with he | ⟨he, hl'⟩ <;> rw [he]
    · exact (h.nodup l').not_mem_erase
    · exact hother l' hl'
  · intro l'
    rcases herase l' with he | ⟨he, -⟩ <;> rw [he]
    · exact (h.nodup l').erase k
    · exact h.nodup l'
  · intro l' j hj hhead
    rcases herase l' with he | ⟨he, -⟩ <;> rw [he]
    · exact head?_erase hj hhead
    · exact hhead
  · exact fun hin => hin.elim

theorem of_shape (h : Lined s) (hs : Shape s a s') : Lined s' := by
  cases hs with
  | give cmd hs => exact hs ▸ h.give cmd
  | @settle k ok cmd ha hk hcmd hl hok hs =>
    have hnot : ∀ l', k ∉ s.line l' := h.not_mem (by rw [hk]; exact id)
    subst hs
    apply h.of_update (.answered ok) hcmd
    · simp
    · rfl
    · rfl
    · exact fun _ _ _ => Iff.rfl
    · intro l'
      simpa [setStage, Stage.InLine] using hnot l'
    · exact h.nodup
    · exact fun _ _ _ hh => hh
    · exact fun hin => hin.elim
  | queue ha hk hcmd hl hs => exact hs ▸ h.queue hk hcmd hl
  | @inside k l cmd ts st hcmd hl hin hhead hwhy hst hgiven hstage hline hrun hts hawaits =>
    apply h.of_update st hcmd (fun e => by simp [e, Stage.Inside] at hst) hgiven hstage
    · intro l' j _
      rw [hline]
    · intro l'
      rw [hline, h.mem_line l' k, hcmd]
      simp [hin, hst.inLine]
    · rw [hline]
      exact h.nodup
    · intro l' j _ hh
      rw [hline]
      exact hh
    · intro _ l' hl'
      rw [hl] at hl'
      obtain rfl := Option.some.inj hl'
      rw [hline]
      exact hhead
  | leave hcmd hl hin hwhy hok hgiven hstage hline hrun => exact h.leave hcmd hl hgiven hstage hline
  | answer i hs => exact hs ▸ ⟨h.unknown, h.mem_line, h.nodup, h.head⟩

theorem step (h : Lined s) (hs : Tasks.step s a = some s') : Lined s' :=
  h.of_shape (shape_of_move h (move_of_step hs))

end Lined

end Lined

section Turns

variable {R : SwitchCommand → SwitchCommand → Prop}

/-- Where `R c d` asks that an earlier `c` is in line before `d`: who asks now has no such one
before it that has yet to ask. -/
def InTurn (R : SwitchCommand → SwitchCommand → Prop) (s : Tasks) (a : Act) : Prop :=
  ∀ j k c d, a = .poll k → j < k → s.given[j]? = some c → s.given[k]? = some d → R c d →
    s.stage j ≠ .spawned

/-- The commands get in line, and are answered, as they are asked to. -/
structure Turns (R : SwitchCommand → SwitchCommand → Prop) (s : Tasks) : Prop where
  asked : ∀ j k c d, j < k → s.given[j]? = some c → s.given[k]? = some d → R c d →
    s.stage k ≠ .spawned → s.stage j ≠ .spawned
  order : ∀ l, (s.line l).Pairwise fun k j => ∀ c d, s.given[j]? = some c → s.given[k]? = some d →
    R c d → ¬ j < k
  done : ∀ j k c d, j < k → s.given[j]? = some c → s.given[k]? = some d → R c d →
    s.stage k = .answered true → ∃ ok, s.stage j = .answered ok

namespace Turns

theorem new (adapters : List (Protocol × Bool)) (settings file : Config.Settings) :
    Turns R (Tasks.new adapters settings file) := by
  constructor <;> simp [Tasks.new]

theorem give (h : Turns R s) (hi : Lined s) (cmd : SwitchCommand) : Turns R (s.give cmd) := by
  have hgiven : ∀ {j : ℕ} {c : SwitchCommand}, (s.give cmd).stage j ≠ .spawned →
      (s.give cmd).given[j]? = some c → j < s.given.length ∧ s.given[j]? = some c := by
    intro j c hj hc
    rw [getElem?_give] at hc
    split_ifs at hc with he
    · exact absurd (he ▸ Function.update_self ..) hj
    · exact ⟨(List.getElem?_eq_some_iff.mp hc).1, hc⟩
  have hstage : ∀ {j : ℕ}, j < s.given.length → (s.give cmd).stage j = s.stage j :=
    fun hj => Function.update_of_ne hj.ne _ _
  have hold : ∀ {j : ℕ} {c : SwitchCommand}, j < s.given.length →
      (s.give cmd).given[j]? = some c → s.given[j]? = some c := by
    intro j c hj hc
    rwa [getElem?_give, if_neg hj.ne] at hc
  constructor
  · intro j k c d hjk hc hd hR hk
    obtain ⟨hlt, hd⟩ := hgiven hk hd
    rw [hstage hlt] at hk
    rw [hstage (hjk.trans hlt)]
    exact h.asked j k c d hjk (hold (hjk.trans hlt) hc) hd hR hk
  · intro l
    have hmem : ∀ {k : ℕ}, k ∈ s.line l → k < s.given.length := by
      intro k hk
      obtain ⟨-, c, hc, -⟩ := (hi.mem_line l k).mp hk
      exact (List.getElem?_eq_some_iff.mp hc).1
    exact (h.order l).imp_of_mem fun hk hj hkj c d hc hd =>
      hkj c d (hold (hmem hj) hc) (hold (hmem hk) hd)
  · intro j k c d hjk hc hd hR hk
    obtain ⟨hlt, hd⟩ := hgiven (by rw [hk]; simp) hd
    rw [hstage hlt] at hk
    rw [hstage (hjk.trans hlt)]
    exact h.done j k c d hjk (hold (hjk.trans hlt) hc) hd hR hk

theorem of_update (h : Turns R s) (st : Stage) (hst : st ≠ .spawned)
    (hk : ∀ ok, s.stage k ≠ .answered ok) (hgiven : s'.given = s.given)
    (hstage : s'.stage = Function.update s.stage k st)
    (hasked : ∀ j c d, j < k → s.given[j]? = some c → s.given[k]? = some d → R c d →
      s.stage j ≠ .spawned)
    (horder : ∀ l, (s'.line l).Pairwise fun k j => ∀ c d, s.given[j]? = some c →
      s.given[k]? = some d → R c d → ¬ j < k)
    (hdone : ∀ j c d, j < k → s.given[j]? = some c → s.given[k]? = some d → R c d →
      st = .answered true → ∃ ok, s.stage j = .answered ok) : Turns R s' := by
  constructor
  · intro j i c d hji hc hd hR hi
    rw [hgiven] at hc hd
    rw [hstage] at hi ⊢
    by_cases hj : j = k
    · rw [hj, Function.update_self]
      exact hst
    · rw [Function.update_of_ne hj]
      by_cases hik : i = k
      · subst hik
        exact hasked j c d hji hc hd hR
      · rw [Function.update_of_ne hik] at hi
        exact h.asked j i c d hji hc hd hR hi
  · intro l
    rw [hgiven]
    exact horder l
  · intro j i c d hji hc hd hR hi
    rw [hgiven] at hc hd
    rw [hstage] at hi ⊢
    by_cases hik : i = k
    · subst hik
      rw [Function.update_self] at hi
      rw [Function.update_of_ne hji.ne]
      exact hdone j c d hji hc hd hR hi
    · rw [Function.update_of_ne hik] at hi
      obtain ⟨ok, hj⟩ := h.done j i c d hji hc hd hR hi
      have hjk : j ≠ k := fun e => hk ok (e ▸ hj)
      exact ⟨ok, by rw [Function.update_of_ne hjk, hj]⟩

/-- A command that is in line has all of them before it that it is asked to. -/
theorem queue (h : Turns R s) (hi : Lined s) (hk : s.stage k = .spawned)
    (hasked : ∀ j c d, j < k → s.given[j]? = some c → s.given[k]? = some d → R c d →
      s.stage j ≠ .spawned) : Turns R (s.queue l k) := by
  apply h.of_update .waiting (by simp) (fun ok => by rw [hk]; simp)
  · rfl
  · rfl
  · exact hasked
  · intro l'
    by_cases hl' : l' = l
    · subst hl'
      rw [show (s.queue l' k).line l' = s.line l' ++ [k] from Function.update_self ..]
      refine List.pairwise_append.mpr ⟨h.order l', List.pairwise_singleton _ _, ?_⟩
      intro i him j hjm c d hc hd hR hji
      obtain rfl := List.mem_singleton.mp hjm
      refine h.asked j i c d hji hc hd hR (fun hsp => ?_) hk
      have := ((hi.mem_line l' i).mp him).1
      rw [hsp] at this
      exact this
    · rw [show (s.queue l k).line l' = s.line l' from Function.update_of_ne hl' ..]
      exact h.order l'
  · simp

/-- What is before the first in line, and had to be in line before it, was answered. -/
theorem answered_of_head (h : Turns R s) (hi : Lined s)
    (hR : ∀ c d, R c d → d.lock = some l → c.lock = some l) {j : ℕ} {c d : SwitchCommand}
    (hhead : (s.line l).head? = some k) (hin : (s.stage k).InLine) (hjk : j < k)
    (hc : s.given[j]? = some c) (hd : s.given[k]? = some d) (hcd : R c d) (hl : d.lock = some l) :
    ∃ ok, s.stage j = .answered ok := by
  have hlt : j < s.given.length := (List.getElem?_eq_some_iff.mp hc).1
  rcases (s.stage j).inLine_or with hj | hj | hj | hj
  · exact absurd ((hi.unknown j).mp hj) (by omega)
  · exact absurd hj (h.asked j k c d hjk hc hd hcd fun e => by rw [e] at hin; exact hin)
  · have hmem : j ∈ s.line l := (hi.mem_line l j).mpr ⟨hj, c, hc, hR c d hcd hl⟩
    obtain ⟨rest, hrest⟩ := List.head?_eq_some_iff.mp hhead
    have hpair := h.order l
    rw [hrest] at hpair hmem
    have hmem : j ∈ rest := (List.mem_cons.mp hmem).resolve_left hjk.ne
    exact absurd hjk ((List.pairwise_cons.mp hpair).1 j hmem c d hc hd hcd)
  · exact hj

theorem of_shape (h : Turns R s) (hi : Lined s)
    (hR : ∀ c d l, R c d → d.lock = some l → c.lock = some l) (hR' : ∀ c d, R c d → d.lock ≠ none)
    (hturn : InTurn R s a) (hs : Shape s a s') : Turns R s' := by
  cases hs with
  | give cmd hs => exact hs ▸ h.give hi cmd
  | @settle k ok cmd ha hk hcmd hl hok hs =>
    subst hs
    apply h.of_update (.answered ok) (by simp) (fun ok => by rw [hk]; simp)
    · rfl
    · rfl
    · exact fun j c d hjk hc hd hcd => hturn j k c d ha hjk hc hd hcd
    · exact h.order
    · intro j c d _ _ hd hcd hst
      rw [hcmd] at hd
      obtain rfl := Option.some.inj hd
      exact absurd (hok (by simpa using hst)) (hR' c cmd hcd)
  | queue ha hk hcmd hl hs =>
    exact hs ▸ h.queue hi hk fun j c d hjk hc hd hcd => hturn j _ c d ha hjk hc hd hcd
  | @inside k l cmd ts st hcmd hl hin hhead hwhy hst hgiven hstage hline hrun hts hawaits =>
    apply h.of_update st hst.inLine.ne_spawned hin.ne_answered hgiven hstage
    · exact fun j c d hjk hc hd hcd => h.asked j k c d hjk hc hd hcd hin.ne_spawned
    · rw [hline]
      exact h.order
    · exact fun _ _ _ _ _ _ _ e => absurd e (hst.inLine.ne_answered true)
  | @leave k l cmd ok hcmd hl hin hwhy hok hgiven hstage hline hrun =>
    apply h.of_update (.answered ok) (by simp) hin.ne_answered hgiven hstage
    · exact fun j c d hjk hc hd hcd => h.asked j k c d hjk hc hd hcd hin.ne_spawned
    · intro l'
      by_cases hl' : l' = l
      · subst hl'
        rw [hline, Function.update_self]
        exact (h.order l').sublist List.erase_sublist
      · rw [hline, Function.update_of_ne hl']
        exact h.order l'
    · intro j c d hjk hc hd hcd hst
      have hd' := hd
      rw [hcmd] at hd'
      obtain rfl := Option.some.inj hd'
      exact h.answered_of_head hi (fun c d => hR c d l) (hok (by simpa using hst)) hin
        hjk hc hd hcd hl
  | answer i hs => exact hs ▸ ⟨h.asked, h.order, h.done⟩

end Turns

end Turns

end Tasks

end Sukkula.Hub
