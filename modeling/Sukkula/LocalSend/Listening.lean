import Sukkula.LocalSend.Adapter

/-! # Who listens

While Receive is on, the current server takes offers and is not closing. When
neither switch is on and no call runs, a server whose slot is free has closed.
A server that discovery announces stays open, unless the one that freed its
slot had both flags looked up before discovery set its own.
-/

namespace Sukkula.LocalSend

open Transition

namespace Server

variable {s s' : Server}

theorem Move.latch (hm : Move s s') : s'.accepting = s.accepting ∧ s'.closing = s.closing ∧
    ((s'.freeing = s.freeing ∧ (s'.slot = .free → s.slot = .free)) ∨
      (s.freeing = none ∧ s'.freeing = some .loadAccepting)) := by
  cases hm with
  | claim | activate => exact ⟨rfl, rfl, Or.inl ⟨rfl, by simp⟩⟩
  | drop t g reply sender q hp hf hs => exact ⟨rfl, rfl, Or.inr ⟨hf, rfl⟩⟩
  | release i x sender q hx hp hf hs => exact ⟨rfl, rfl, Or.inr ⟨hf, rfl⟩⟩
  | _ => exact ⟨rfl, rfl, Or.inl ⟨rfl, id⟩⟩

theorem latch_of_step {a : Act} {d : Bool} (ha : Adapter.serverActs d a = true)
    (h : s.step a = some s') : s'.accepting = s.accepting ∧ s'.draining = s.draining ∧
    ((s'.closing = s.closing ∧ s'.freeing = s.freeing ∧ (s'.slot = .free → s.slot = .free)) ∨
      (s'.closing = s.closing ∧ s.freeing = none ∧ s'.freeing = some .loadAccepting) ∨
      s.free d = some s') := by
  rcases step_cases h with hm | ⟨d', rfl, hf⟩ | ⟨rfl, -⟩ | ⟨d', rfl, -⟩ | ⟨rfl, -⟩
  · obtain ⟨hacc, hclo, hslot⟩ := hm.latch
    refine ⟨hacc, hm.draining, ?_⟩
    rcases hslot with ⟨hfree, hs⟩ | ⟨hn, hl⟩
    · exact Or.inl ⟨hclo, hfree, hs⟩
    · exact Or.inr (Or.inl ⟨hclo, hn, hl⟩)
  · obtain rfl : d' = d := by simpa [Adapter.serverActs] using ha
    refine ⟨?_, ?_, Or.inr (Or.inr hf)⟩ <;>
      rcases free_cases hf with ⟨-, rfl⟩ | ⟨-, rfl⟩ | ⟨-, rfl⟩ <;> rfl
  · cases ha
  · cases ha
  · cases ha

/-- It takes offers, and nobody is about to close it. -/
def Serves (s : Server) : Prop :=
  s.accepting = true ∧ s.closing = false ∧ (s.freeing = none ∨ s.freeing = some .loadAccepting)

theorem Serves.step (hs : s.Serves) {a : Act} {d : Bool} (ha : Adapter.serverActs d a = true)
    (h : s.step a = some s') : s'.Serves := by
  obtain ⟨hacc, hclo, hf⟩ := hs
  obtain ⟨hacc', -, ⟨hc, hfr, -⟩ | ⟨hc, -, hfr⟩ | hfree⟩ := latch_of_step ha h
  · exact ⟨hacc'.trans hacc, hc.trans hclo, hfr ▸ hf⟩
  · exact ⟨hacc'.trans hacc, hc.trans hclo, Or.inr hfr⟩
  · rcases free_cases hfree with ⟨-, rfl⟩ | ⟨hl, -⟩ | ⟨hl, -⟩
    · exact ⟨hacc, hclo, Or.inl (if_pos hacc)⟩
    · simp [hl] at hf
    · simp [hl] at hf

theorem closing_step {a : Act} {d : Bool} (ha : Adapter.serverActs d a = true)
    (h : s.step a = some s') (hc : s.closing = true) : s'.closing = true := by
  obtain ⟨-, -, ⟨he, -⟩ | ⟨he, -⟩ | hfree⟩ := latch_of_step ha h
  · exact he.trans hc
  · exact he.trans hc
  · rcases free_cases hfree with ⟨-, rfl⟩ | ⟨-, rfl⟩ | ⟨-, rfl⟩
    · exact hc
    · exact hc
    · rfl

/-- An open server with a free slot that is wanted by nobody. -/
def Idle (s : Server) : Prop :=
  s.closing = false ∧ s.slot = .free ∧ s.freeing = none ∧ s.accepting = false

/-- A server does not get there by itself while discovery is off. -/
theorem Idle.of_step {a : Act} {d : Bool} (ha : Adapter.serverActs d a = true)
    (h : s.step a = some s') (hi : s'.Idle) : s.Idle ∨ d = true := by
  obtain ⟨hc', hs', hf', ha'⟩ := hi
  obtain ⟨hacc, -, ⟨hc, hfr, hs⟩ | ⟨hc, -, hfr⟩ | hfree⟩ := latch_of_step ha h
  · exact Or.inl ⟨hc ▸ hc', hs hs', hfr ▸ hf', hacc ▸ ha'⟩
  · rw [hfr] at hf'
    cases hf'
  · rcases free_cases hfree with ⟨-, rfl⟩ | ⟨-, rfl⟩ | ⟨-, rfl⟩
    · dsimp only at hf' ha'
      rw [ha'] at hf'
      cases hf'
    · cases d with
      | true => exact Or.inr rfl
      | false => cases hf'
    · cases hc'

end Server

namespace Adapter

variable {s s' : Adapter}

/-- A call that will look at an idle server before it ends. -/
def Looks (s : Adapter) (x : Server) : Prop :=
  s.call = some .testingReceiving ∨ s.call = some .draining ∨
    (s.call = some .drained ∧ x.draining = some true)

/-- What is true of the adapter at every point. -/
structure Inv (s : Adapter) : Prop where
  current : ∀ i, s.current = some i → i < s.started
  closed : ∀ i < s.started, s.current ≠ some i → (s.servers i).closing = true
  serves : s.receiving = true ∨ s.call = some .storingReceiving →
    ∃ i, s.current = some i ∧ (s.servers i).Serves
  off : s.call = some .draining ∨ s.call = some .drained ∨ (∃ b, s.call = some (.starting b)) →
    s.receiving = false
  fresh : ∀ b, s.call = some (.starting b) → s.current = none
  on : s.serving = true ∨ s.call = some .receivingStarted → s.receiving = true
  stopped : s.call = some .clearingReceiving → s.serving = false
  searching : s.call = some .testing ∨ s.call = some (.starting false) ∨
    s.call = some .discoveryStarted → s.discovering = true
  accepting : ∀ i, s.current = some i → (s.servers i).accepting = true →
    s.receiving = true ∨ s.call = some .storingReceiving ∨ s.call = some .draining
  wanted : ∀ i, s.current = some i → (s.servers i).Idle → s.discovering = true ∨
    s.Looks (s.servers i)

namespace Inv

theorem new : Adapter.new.Inv := by
  constructor <;> simp [Adapter.new]

theorem server (h : s.Inv) {i : ℕ} {a : Server.Act} {x : Server}
    (ha : serverActs s.discovering a = true) (hx : (s.servers i).step a = some x) :
    (s.setServer i x).Inv where
  current := h.current
  closed j hj hne := by
    have hc := h.closed j hj hne
    by_cases hji : j = i
    · subst hji
      exact (congrArg Server.closing (update_self)).trans (Server.closing_step ha hx hc)
    · exact (congrArg Server.closing (Function.update_of_ne hji _ _)).trans hc
  serves hr := by
    obtain ⟨j, hj, hs⟩ := h.serves hr
    refine ⟨j, hj, ?_⟩
    by_cases hji : j = i
    · subst hji
      simpa [setServer] using hs.step ha hx
    · simpa [setServer, Function.update_of_ne hji] using hs
  off := h.off
  fresh := h.fresh
  on := h.on
  stopped := h.stopped
  searching := h.searching
  accepting j hj hacc := by
    apply h.accepting j hj
    by_cases hji : j = i
    · subst hji
      rw [← (Server.latch_of_step ha hx).1]
      simpa [setServer] using hacc
    · simpa [setServer, Function.update_of_ne hji] using hacc
  wanted j hj hidle := by
    by_cases hji : j = i
    · subst hji
      have hdr := (Server.latch_of_step ha hx).2.1
      simp only [setServer, Function.update_self] at hidle
      rcases hidle.of_step ha hx with hi | hd
      · simpa [setServer, Looks, hdr] using h.wanted j hj hi
      · exact Or.inl hd
    · simp only [setServer, Function.update_of_ne hji] at hidle
      simpa [setServer, Looks, Function.update_of_ne hji] using h.wanted j hj hidle

theorem goTo (h : s.Inv) {receiving discovering serving : Bool} {announced : Option ℕ}
    {call : Option Call}
    (hserves : receiving = true ∨ call = some .storingReceiving →
      s.receiving = true ∨ s.call = some .storingReceiving)
    (hoff : call = some .draining ∨ call = some .drained ∨ (∃ b, call = some (.starting b)) →
      receiving = false)
    (hfresh : ∀ b, call = some (.starting b) → s.current = none)
    (hon : serving = true ∨ call = some .receivingStarted → receiving = true)
    (hstopped : call = some .clearingReceiving → serving = false)
    (hsearch : call = some .testing ∨ call = some (.starting false) ∨
      call = some .discoveryStarted → discovering = true)
    (hacc : s.receiving = true ∨ s.call = some .storingReceiving ∨ s.call = some .draining →
      receiving = true ∨ call = some .storingReceiving ∨ call = some .draining)
    (hwant : ∀ i, s.current = some i → (s.servers i).Idle →
      s.discovering = true ∨ s.Looks (s.servers i) →
      discovering = true ∨ call = some .testingReceiving ∨ call = some .draining) :
    ({ s with
      receiving := receiving, discovering := discovering, serving := serving
      announced := announced, call := call } : Adapter).Inv where
  current := h.current
  closed := h.closed
  serves hr := h.serves (hserves hr)
  off := hoff
  fresh := hfresh
  on := hon
  stopped := hstopped
  searching := hsearch
  accepting i hi ha := hacc (h.accepting i hi ha)
  wanted i hi hidle := (hwant i hi hidle (h.wanted i hi hidle)).imp_right fun hl =>
    hl.imp_right Or.inl

theorem begin (h : s.Inv) {a : Act} (ha : ∀ ok, a ≠ .go ok) (hb : ∀ i b, a ≠ .server i b)
    (hs : s.step a = some s') : s'.Inv := by
  cases a with
  | go ok => exact absurd rfl (ha ok)
  | server i b => exact absurd rfl (hb i b)
  | startReceiving | stopReceiving | startDiscovery | stopDiscovery =>
    simp only [Adapter.step] at hs
    split_ifs at hs with hc
    obtain rfl := Option.some.inj hs
    have hon := h.on
    apply h.goTo <;> simp_all [Looks]

theorem letGo (h : s.Inv) {i : ℕ} {x : Server} {c : Call} (hi : s.current = some i)
    (hx : x.closing = true) (hr : s.receiving = false)
    (hcall : c = .ending ∨ c = .starting true ∨ (c = .starting false ∧ s.discovering = true))
    (hs : s.serving = false) :
    ({ s.setServer i x with current := none, call := some c } : Adapter).Inv := by
  constructor
  · simp
  · intro j hj _
    by_cases hji : j = i
    · subst hji
      simpa [setServer] using hx
    · simpa [setServer, Function.update_of_ne hji] using
        h.closed j hj (by simpa [hi] using Ne.symm hji)
  · rintro (hr' | hc)
    · exact absurd (hr.symm.trans hr') (by simp)
    · rcases hcall with rfl | rfl | ⟨rfl, -⟩ <;> cases hc
  · exact fun _ => hr
  · simp
  · rintro (hs' | hc)
    · exact absurd (hs.symm.trans hs') (by simp)
    · rcases hcall with rfl | rfl | ⟨rfl, -⟩ <;> cases hc
  · exact fun _ => hs
  · intro hc
    rcases hcall with rfl | rfl | ⟨rfl, hd⟩
    · simp at hc
    · simp at hc
    · exact hd
  · simp
  · simp

theorem setCurrent (h : s.Inv) {i : ℕ} {x : Server} {c : Call} (hi : s.current = some i)
    (hcall : c = .storingReceiving ∨ (c = .drained ∧ s.receiving = false) ∨ c = .ending)
    (hserves : s.receiving = true ∨ c = .storingReceiving → x.Serves)
    (hacc : x.accepting = true → s.receiving = true ∨ c = .storingReceiving)
    (hwant : x.Idle → s.discovering = true ∨ (c = .drained ∧ x.draining = some true)) :
    ((s.setServer i x).goTo c).Inv where
  current := h.current
  closed j hj hne := by
    have hji : j ≠ i := by
      rintro rfl
      exact hne hi
    simpa [setServer, Adapter.goTo, Function.update_of_ne hji] using h.closed j hj hne
  serves hr := ⟨i, hi, by
    simpa [setServer, Adapter.goTo] using hserves (hr.imp_right Option.some.inj)⟩
  off hc := by
    rcases hcall with rfl | ⟨rfl, hr⟩ | rfl
    · simp [Adapter.goTo] at hc
    · exact hr
    · simp [Adapter.goTo] at hc
  fresh b hb := by rcases hcall with rfl | ⟨rfl, -⟩ | rfl <;> cases hb
  on ho := by
    refine h.on (ho.imp_right fun hc => ?_)
    rcases hcall with rfl | ⟨rfl, -⟩ | rfl <;> cases hc
  stopped hc := by rcases hcall with rfl | ⟨rfl, -⟩ | rfl <;> cases hc
  searching hc := by rcases hcall with rfl | ⟨rfl, -⟩ | rfl <;> simp [Adapter.goTo] at hc
  accepting j hj ha := by
    obtain rfl := Option.some.inj (hj.symm.trans hi)
    have hx := hacc (by simpa [setServer, Adapter.goTo] using ha)
    exact hx.imp_right fun hc => Or.inl (congrArg some hc)
  wanted j hj hidle := by
    obtain rfl := Option.some.inj (hj.symm.trans hi)
    have hx := hwant (by simpa [setServer, Adapter.goTo] using hidle)
    refine hx.imp_right fun hc => Or.inr (Or.inr ⟨congrArg some hc.1, ?_⟩)
    simpa [setServer, Adapter.goTo] using hc.2

theorem not_serving (h : s.Inv) (hr : s.receiving = false) : s.serving = false := by
  cases hs : s.serving with
  | false => rfl
  | true => exact absurd (hr.symm.trans (h.on (Or.inl hs))) (by simp)

theorem receiving_eq_false (h : s.Inv) (hs : ∀ i, s.current = some i → ¬ (s.servers i).Serves) :
    s.receiving = false := by
  cases hr : s.receiving with
  | false => rfl
  | true =>
    obtain ⟨i, hi, hserves⟩ := h.serves (Or.inl hr)
    exact absurd hserves (hs i hi)

theorem resume (h : s.Inv) (hc : s.call = some .resuming) (hs : s.resume = some s') : s'.Inv := by
  unfold Adapter.resume at hs
  split at hs
  · rename_i hcur
    obtain rfl := Option.some.inj hs
    have hr := h.receiving_eq_false (by simp [hcur])
    exact h.goTo (by simp [hr]) (fun _ => hr) (fun _ _ => hcur) (by simp [h.not_serving hr])
      (by simp) (by simp) (by simp [hc]) (by simp [hcur])
  · rename_i i hi
    obtain ⟨⟨x, ok⟩, hx, rfl⟩ := Option.map_eq_some_iff.mp hs
    obtain ⟨hfree, -, hclo, rfl⟩ := Server.resume_cases hx
    cases ok with
    | true =>
      refine h.setCurrent hi (Or.inl rfl) (fun _ => ⟨by simp, by simpa using hclo, Or.inl hfree⟩)
        (by simp) fun hidle => ?_
      simp [Server.Idle] at hidle
    | false =>
      have hclosing : (s.servers i).closing = true := by simpa using hclo
      have hr := h.receiving_eq_false fun j hj hserves => by
        obtain rfl := Option.some.inj (hj.symm.trans hi)
        exact absurd (hserves.2.1.symm.trans hclosing) (by simp)
      exact h.letGo hi hclosing hr (by simp) (h.not_serving hr)

theorem start (h : s.Inv) {accepting ok : Bool} (hc : s.call = some (.starting accepting)) :
    (s.start accepting ok).Inv := by
  have hcur := h.fresh accepting hc
  have hr := h.off (Or.inr (Or.inr ⟨accepting, hc⟩))
  have hs := h.not_serving hr
  unfold Adapter.start
  cases ok with
  | true =>
    constructor
    · simp
    · intro i hi hne
      have hne' : i ≠ s.started := by simpa [eq_comm] using hne
      have hlt : i < s.started := lt_of_le_of_ne (Nat.le_of_lt_succ hi) hne'
      simpa [setServer, Function.update_of_ne hne'] using h.closed i hlt (by simp [hcur])
    · intro hx
      refine ⟨s.started, rfl, ?_⟩
      cases accepting <;> simp_all [setServer, Server.Serves, Server.new]
    · exact fun _ => hr
    · cases accepting <;> simp
    · cases accepting <;> simp_all [setServer]
    · exact fun _ => hs
    · cases accepting with
      | true => simp
      | false => exact fun _ => h.searching (Or.inr (Or.inl hc))
    · cases accepting <;> simp [setServer, Server.new]
    · cases accepting with
      | true => simp [setServer, Server.new, Server.Idle]
      | false => exact fun _ _ _ => Or.inl (h.searching (Or.inr (Or.inl hc)))
  | false =>
    cases accepting with
    | true =>
      exact h.goTo (by simp [hr]) (fun _ => hr) (by simp) (by simp [hs]) (by simp) (by simp)
        (by simp [hr, hc]) (by simp [hcur])
    | false =>
      have hd := h.searching (Or.inr (Or.inl hc))
      exact h.goTo (by simp [hr]) (fun _ => hr) (by simp) (by simp [hs]) (by simp) (by simp [hd])
        (by simp [hr, hc]) (by simp [hcur])

theorem drain (h : s.Inv) (hc : s.call = some .draining) (hs : s.drain = some s') : s'.Inv := by
  have hr := h.off (Or.inl hc)
  unfold Adapter.drain at hs
  split at hs
  · rename_i hcur
    obtain rfl := Option.some.inj hs
    have hserving := h.not_serving hr
    constructor
    · exact h.current
    · exact h.closed
    · simp [Adapter.goTo, hr]
    · exact fun _ => hr
    · simp [Adapter.goTo]
    · simp [Adapter.goTo, hserving]
    · simp [Adapter.goTo]
    · simp [Adapter.goTo]
    · simp [Adapter.goTo, hcur]
    · simp [Adapter.goTo, hcur]
  · rename_i i hi
    obtain ⟨x, hx, rfl⟩ := Option.map_eq_some_iff.mp hs
    obtain ⟨-, -, rfl⟩ := Server.drain_cases hx
    refine h.setCurrent hi (Or.inr (Or.inl ⟨rfl, hr⟩)) (by simp [hr]) (by simp) fun hidle => ?_
    exact Or.inr ⟨rfl, by simpa using hidle.2.1⟩

theorem drained (h : s.Inv) (hc : s.call = some .drained) (hs : s.drained = some s') : s'.Inv := by
  have hr := h.off (Or.inr (Or.inl hc))
  unfold Adapter.drained at hs
  split at hs
  · cases hs
  · rename_i i hi
    obtain ⟨x, hx, rfl⟩ := Option.map_eq_some_iff.mp hs
    obtain ⟨idle, hd, rfl⟩ := Server.drained_cases hx
    dsimp only
    split_ifs with hstop
    · obtain ⟨hidle, hdisc⟩ := hstop
      obtain rfl := Option.some.inj (hd.symm.trans hidle)
      exact h.letGo hi (by simp [hdisc]) hr (by simp) (h.not_serving hr)
    · have hset := h.setCurrent (x := { s.servers i with
          draining := none, closing := (s.servers i).closing || (idle && !s.discovering) })
        (c := .ending) hi (by simp) (by simp [hr]) ?_ ?_
      · simpa [Adapter.goTo, setServer, hi] using hset
      · intro ha
        have := h.accepting i hi ha
        simp [hr, hc] at this
      · intro hidle
        refine Or.inl ?_
        obtain ⟨hclo, hslot, hfree, hacc⟩ := hidle
        obtain ⟨hopen, hlook⟩ : (s.servers i).closing = false ∧
            (idle = true → s.discovering = true) := by
          simpa using hclo
        cases idle with
        | true => exact hlook rfl
        | false =>
          -- The slot was held when `drain` looked, so whoever freed it found discovery on.
          exact (h.wanted i hi ⟨hopen, hslot, hfree, hacc⟩).resolve_right (by simp [Looks, hc, hd])

theorem test (h : s.Inv) (hc : s.call = some .testing) : s.test.Inv := by
  have hd := h.searching (Or.inl hc)
  unfold Adapter.test
  split
  · rename_i hcur
    have hr := h.receiving_eq_false (by simp [hcur])
    exact h.goTo (by simp [hr]) (fun _ => hr) (fun _ _ => hcur) (by simp [h.not_serving hr])
      (by simp) (by simp [hd]) (by simp [hc, hr]) (by simp [hcur])
  · rename_i i hi
    split_ifs with hclo
    · have hr := h.receiving_eq_false fun j hj hserves => by
        obtain rfl := Option.some.inj (hj.symm.trans hi)
        exact absurd (hserves.2.1.symm.trans hclo) (by simp)
      simpa [setServer] using
        h.letGo (c := .starting false) hi hclo hr (by simp [hd]) (h.not_serving hr)
    · exact h.goTo (fun hr => Or.inl (by simpa using hr)) (by simp) (by simp)
        (fun ho => h.on (ho.imp_right (by simp))) (by simp) (by simp [hd]) (by simp [hc])
          (by simp [hd])

theorem go (h : s.Inv) {ok : Bool} {c : Call} (hc : s.call = some c) (hs : s.go ok c = some s') :
    s'.Inv := by
  cases c with
  | resuming => exact h.resume hc hs
  | starting accepting =>
    obtain rfl := Option.some.inj hs
    exact h.start hc
  | draining => exact h.drain hc hs
  | drained => exact h.drained hc hs
  | testing =>
    obtain rfl := Option.some.inj hs
    exact h.test hc
  | storingReceiving | receivingStarted | clearingReceiving | storingDiscovering
  | discoveryStarted | clearingDiscovering | ending =>
    obtain rfl := Option.some.inj hs
    have hon := h.on
    have hoff := h.off
    have hstopped := h.stopped
    have hsearch := h.searching
    apply h.goTo <;> simp_all [Looks]
  | testingReceiving =>
    obtain rfl := Option.some.inj hs
    have hon := h.on
    cases hr : s.receiving with
    | false => apply h.goTo <;> simp_all [Looks]
    | true =>
      obtain ⟨i, hi, hserves⟩ := h.serves (Or.inl hr)
      refine h.goTo (by simp [hr]) (by simp) (by simp) (by simp [hr]) (by simp) (by simp)
        (by simp [hr]) fun j hj hidle => ?_
      obtain rfl := Option.some.inj (hj.symm.trans hi)
      exact absurd (hserves.1.symm.trans hidle.2.2.2) (by simp)

theorem step (h : s.Inv) {a : Act} (hs : s.step a = some s') : s'.Inv := by
  cases a with
  | go ok =>
    obtain ⟨c, hc, hg⟩ := Option.bind_eq_some_iff.mp hs
    exact h.go hc hg
  | server i a =>
    simp only [Adapter.step] at hs
    split_ifs at hs with hcond
    obtain ⟨x, hx, rfl⟩ := Option.map_eq_some_iff.mp hs
    exact h.server hcond.2 hx
  | startReceiving => exact h.begin (by simp) (by simp) hs
  | stopReceiving => exact h.begin (by simp) (by simp) hs
  | startDiscovery => exact h.begin (by simp) (by simp) hs
  | stopDiscovery => exact h.begin (by simp) (by simp) hs

theorem of_exec {as : List Act} (h : exec Adapter.step Adapter.new as = some s) : s.Inv :=
  exec_invariant (fun _ _ _ hI hs => hI.step hs) new h

end Inv

/-- Receive that is on is served, whatever discovery does; when both switches are off, no call
runs and the slot is free, with nobody holding its lock, every server has closed. -/
theorem listens_as_switched {as : List Act} (h : exec step new as = some s) :
    (s.serving = true → ∃ i, s.current = some i ∧ (s.servers i).accepting = true ∧
      (s.servers i).closing = false) ∧
    (s.receiving = false → s.discovering = false → s.call = none → ∀ i < s.started,
      (s.servers i).slot = .free → (s.servers i).freeing = none →
      (s.servers i).closing = true) := by
  have hinv := Inv.of_exec h
  constructor
  · intro hs
    obtain ⟨i, hi, hacc, hclo, -⟩ := hinv.serves (Or.inl (hinv.on (Or.inl hs)))
    exact ⟨i, hi, hacc, hclo⟩
  · intro hr hd hc i hi hslot hfree
    by_cases hcur : s.current = some i
    · have hacc : (s.servers i).accepting = false := by
        by_contra ha
        have := hinv.accepting i hcur (by simpa using ha)
        simp [hr, hc] at this
      by_contra hopen
      have := hinv.wanted i hcur ⟨by simpa using hopen, hslot, hfree, hacc⟩
      simp [hd, Looks, hc] at this
    · exact hinv.closed i hi hcur

/-- Receive on and off again. -/
theorem listens_as_switched_once : ∃ s s', exec step new
      [.startReceiving, .go true, .go true, .go true, .go true] = some s ∧ s.serving = true ∧
    (∃ i, s.current = some i ∧ (s.servers i).accepting = true ∧ (s.servers i).closing = false) ∧
    exec step s [.stopReceiving, .go true, .go true, .go true, .go true] = some s' ∧
    s'.started = 1 ∧ (s'.servers 0).closing = true := by
  refine ⟨_, _, rfl, rfl, ?_, rfl, rfl, ?_⟩
  · exact (listens_as_switched (show exec step new
      [.startReceiving, .go true, .go true, .go true, .go true] = some _ from rfl)).1 rfl
  · exact (listens_as_switched (show exec step new
      ([.startReceiving, .go true, .go true, .go true, .go true] ++
        [.stopReceiving, .go true, .go true, .go true, .go true]) = some _ from rfl)).2
      rfl rfl rfl 0 (by decide) rfl rfl

/-- Nobody is about to close the server that `start_discovery` finds. -/
def NoneCloses (s : Adapter) (a : Act) : Prop :=
  ∀ ok i, a = .go ok → s.call = some .testing → s.current = some i →
    (s.servers i).freeing ≠ some .cancel

end Adapter

namespace Server

variable {s s' : Server}

/-- It is open, and nobody has decided to close it. -/
def Open (s : Server) : Prop := s.closing = false ∧ s.freeing ≠ some .cancel

theorem Open.step (hs : s.Open) {a : Act} (ha : Adapter.serverActs true a = true)
    (h : s.step a = some s') : s'.Open := by
  obtain ⟨hclo, hf⟩ := hs
  obtain ⟨-, -, ⟨hc, hfr, -⟩ | ⟨hc, -, hfr⟩ | hfree⟩ := latch_of_step ha h
  · exact ⟨hc.trans hclo, hfr ▸ hf⟩
  · exact ⟨hc.trans hclo, by simp [hfr]⟩
  · rcases free_cases hfree with ⟨-, rfl⟩ | ⟨-, rfl⟩ | ⟨hl, -⟩
    · exact ⟨hclo, by dsimp only; split_ifs <;> simp⟩
    · exact ⟨hclo, by simp⟩
    · exact absurd hl hf

end Server

namespace Adapter

variable {s s' : Adapter}

/-- The server that discovery announces, or is about to, is open. -/
structure Heard (s : Adapter) : Prop extends Inv s where
  announced : ∀ i, s.announced = some i ∨ (s.call = some .discoveryStarted ∧ s.current = some i) →
    s.current = some i ∧ s.discovering = true ∧ (s.servers i).Open
  silenced : s.call = some .clearingDiscovering → s.announced = none

namespace Heard

theorem server (h : s.Heard) {i : ℕ} {a : Server.Act} {x : Server}
    (ha : serverActs s.discovering a = true) (hx : (s.servers i).step a = some x) :
    (s.setServer i x).Heard where
  toInv := h.toInv.server ha hx
  announced j hj := by
    obtain ⟨hcur, hd, hopen⟩ := h.announced j hj
    refine ⟨hcur, hd, ?_⟩
    by_cases hji : j = i
    · subst hji
      rw [hd] at ha
      simpa [setServer] using hopen.step ha hx
    · simpa [setServer, Function.update_of_ne hji] using hopen
  silenced := h.silenced

theorem setCurrent (h : s.Heard) {i : ℕ} {x : Server} {c : Call}
    (hinv : ((s.setServer i x).goTo c).Inv) (hi : s.current = some i)
    (hd : c ≠ .discoveryStarted) (hc : c ≠ .clearingDiscovering)
    (hx : s.discovering = true → (s.servers i).Open → x.Open) :
    ((s.setServer i x).goTo c).Heard where
  toInv := hinv
  announced j hj := by
    have hann : s.announced = some j := hj.resolve_right fun hc' => hd (Option.some.inj hc'.1)
    obtain ⟨hcur, hdisc, hopen⟩ := h.announced j (Or.inl hann)
    obtain rfl := Option.some.inj (hcur.symm.trans hi)
    exact ⟨hcur, hdisc, by simpa [setServer, Adapter.goTo] using hx hdisc hopen⟩
  silenced hc' := absurd (Option.some.inj hc') hc

theorem of_none (hinv : s.Inv) (hd : s.call ≠ some .discoveryStarted) (ha : s.announced = none) :
    s.Heard where
  toInv := hinv
  announced i hi := by simp [ha, hd] at hi
  silenced _ := ha

theorem announced_eq_none (h : s.Heard)
    (hc : ∀ i, s.current = some i → s.discovering = true → ¬ (s.servers i).Open) :
    s.announced = none := by
  by_contra hne
  obtain ⟨i, hi⟩ := Option.ne_none_iff_exists'.mp hne
  obtain ⟨hcur, hd, hopen⟩ := h.announced i (Or.inl hi)
  exact hc i hcur hd hopen

theorem resume (h : s.Heard) (hc : s.call = some .resuming) (hs : s.resume = some s') :
    s'.Heard := by
  have hinv := h.toInv.resume hc hs
  unfold Adapter.resume at hs
  split at hs
  · rename_i hcur
    obtain rfl := Option.some.inj hs
    exact of_none hinv (by simp [goTo]) (h.announced_eq_none (by simp [hcur]))
  · rename_i i hi
    obtain ⟨⟨x, ok⟩, hx, rfl⟩ := Option.map_eq_some_iff.mp hs
    obtain ⟨-, -, hclo, rfl⟩ := Server.resume_cases hx
    cases ok with
    | true => exact h.setCurrent hinv hi (by simp) (by simp) fun _ => id
    | false =>
      refine of_none hinv (by simp) (h.announced_eq_none fun j hj _ hopen => ?_)
      obtain rfl := Option.some.inj (hj.symm.trans hi)
      exact absurd (hopen.1.symm.trans hclo) (by simp)

theorem start (h : s.Heard) {accepting ok : Bool} (hc : s.call = some (.starting accepting)) :
    (s.start accepting ok).Heard := by
  have hinv : (s.start accepting ok).Inv := h.toInv.start hc
  have hcur := h.fresh accepting hc
  have hann := h.announced_eq_none (by simp [hcur])
  refine ⟨hinv, fun i hi => ?_, fun _ => ?_⟩
  · cases accepting with
    | true => cases ok <;> simp [Adapter.start, hann, setServer] at hi
    | false =>
      have hd := h.searching (Or.inr (Or.inl hc))
      cases ok with
      | true =>
        obtain rfl : s.started = i := by simpa [Adapter.start, hann, setServer] using hi
        simp [Adapter.start, setServer, hd, Server.Open, Server.new]
      | false => simp [Adapter.start, hann, hcur] at hi
  · cases ok <;> exact hann

theorem drain (h : s.Heard) (hc : s.call = some .draining) (hs : s.drain = some s') : s'.Heard := by
  have hinv := h.toInv.drain hc hs
  unfold Adapter.drain at hs
  split at hs
  · rename_i hcur
    obtain rfl := Option.some.inj hs
    exact of_none hinv (by simp [goTo]) (h.announced_eq_none (by simp [hcur]))
  · rename_i i hi
    obtain ⟨x, hx, rfl⟩ := Option.map_eq_some_iff.mp hs
    obtain ⟨-, -, rfl⟩ := Server.drain_cases hx
    exact h.setCurrent hinv hi (by simp) (by simp) fun _ => id

theorem drained (h : s.Heard) (hc : s.call = some .drained) (hs : s.drained = some s') :
    s'.Heard := by
  have hinv := h.toInv.drained hc hs
  unfold Adapter.drained at hs
  split at hs
  · cases hs
  · rename_i i hi
    obtain ⟨x, hx, rfl⟩ := Option.map_eq_some_iff.mp hs
    obtain ⟨idle, hd, rfl⟩ := Server.drained_cases hx
    dsimp only at hinv ⊢
    split_ifs at hinv ⊢ with hstop
    · refine of_none hinv (by simp) (h.announced_eq_none fun j _ hdisc => ?_)
      exact absurd (hdisc.symm.trans hstop.2) (by simp)
    · have hset := h.setCurrent (x := { s.servers i with
          draining := none, closing := (s.servers i).closing || (idle && !s.discovering) })
        (c := .ending) (by simpa [goTo, setServer, hi] using hinv) hi (by simp) (by simp)
        fun hdisc hopen => ⟨by simp [hdisc, hopen.1], hopen.2⟩
      simpa [goTo, setServer, hi] using hset

theorem test (h : s.Heard) (hc : s.call = some .testing)
    (hnone : ∀ i, s.current = some i → (s.servers i).freeing ≠ some .cancel) : s.test.Heard := by
  have hinv := h.toInv.test hc
  have hd := h.searching (Or.inl hc)
  unfold Adapter.test at hinv ⊢
  split at hinv
  · rename_i hcur
    have hann := h.announced_eq_none (by simp [hcur])
    exact of_none hinv (by simp [goTo]) hann
  · rename_i i hi
    split_ifs at hinv ⊢ with hclo
    · refine of_none hinv (by simp) (h.announced_eq_none fun j hj _ hopen => ?_)
      obtain rfl := Option.some.inj (hj.symm.trans hi)
      exact absurd (hopen.1.symm.trans hclo) (by simp)
    · refine ⟨hinv, fun j hj => ?_, by simp [goTo]⟩
      rcases hj with hj | ⟨-, hj⟩
      · exact h.announced j (Or.inl hj)
      · obtain rfl := Option.some.inj (hj.symm.trans hi)
        exact ⟨hi, hd, by simpa [goTo] using hclo, hnone j hi⟩

theorem go (h : s.Heard) {ok : Bool} {c : Call} (hc : s.call = some c) (hs : s.go ok c = some s')
    (hnone : s.NoneCloses (.go ok)) : s'.Heard := by
  have hinv := h.toInv.go hc hs
  cases c with
  | resuming => exact h.resume hc hs
  | starting accepting =>
    obtain rfl := Option.some.inj hs
    exact h.start hc
  | draining => exact h.drain hc hs
  | drained => exact h.drained hc hs
  | testing =>
    obtain rfl := Option.some.inj hs
    exact h.test hc fun i hi => hnone ok i rfl hc hi
  | discoveryStarted =>
    obtain rfl := Option.some.inj hs
    refine ⟨hinv, fun i hi => h.announced i (Or.inr ⟨hc, ?_⟩), by simp⟩
    simpa using hi
  | clearingDiscovering =>
    obtain rfl := Option.some.inj hs
    exact of_none hinv (by simp) (h.silenced hc)
  | testingReceiving =>
    obtain rfl := Option.some.inj hs
    cases hr : s.receiving <;>
      exact ⟨by simpa [hr] using hinv,
        fun i hi => h.announced i (Or.inl (by simpa [goTo] using hi)),
        by simp [goTo]⟩
  | storingDiscovering =>
    obtain rfl := Option.some.inj hs
    refine ⟨hinv, fun i hi => ?_, by simp⟩
    obtain ⟨hcur, -, hopen⟩ := h.announced i (Or.inl (by simpa using hi))
    exact ⟨hcur, rfl, hopen⟩
  | storingReceiving | receivingStarted | clearingReceiving | ending =>
    obtain rfl := Option.some.inj hs
    exact ⟨hinv, fun i hi => h.announced i (Or.inl (by simpa using hi)), by simp⟩

theorem step (s : Adapter) (a : Act) (s' : Adapter) (h : s.Heard) (hnone : s.NoneCloses a)
    (hs : s.step a = some s') : s'.Heard := by
  have hinv := h.toInv.step hs
  cases a with
  | go ok =>
    obtain ⟨c, hc, hg⟩ := Option.bind_eq_some_iff.mp hs
    exact h.go hc hg hnone
  | server i a =>
    simp only [Adapter.step] at hs
    split_ifs at hs with hcond
    obtain ⟨x, hx, rfl⟩ := Option.map_eq_some_iff.mp hs
    exact h.server hcond.2 hx
  | stopDiscovery =>
    simp only [Adapter.step] at hs
    split_ifs at hs
    obtain rfl := Option.some.inj hs
    exact of_none hinv (by simp) rfl
  | startReceiving | stopReceiving | startDiscovery =>
    simp only [Adapter.step] at hs
    split_ifs at hs
    obtain rfl := Option.some.inj hs
    exact ⟨hinv, fun i hi => h.announced i (Or.inl (by simpa [goTo] using hi)), by simp [goTo]⟩

end Heard

/-- In every run in which `start_discovery` never finds a server that somebody has decided to
close: the server that it returned with stays open until `stop_discovery` is called. -/
theorem announced_stays_open {as : List Act} {i : ℕ} (h : exec step new as = some s)
    (hnone : Along step NoneCloses new as) (hi : s.announced = some i) :
    s.current = some i ∧ (s.servers i).closing = false := by
  have hheard : s.Heard := exec_invariant_along Heard.step
    (Heard.of_none Inv.new (by simp [new]) rfl) hnone h
  obtain ⟨hcur, -, hopen⟩ := hheard.announced i (Or.inl hi)
  exact ⟨hcur, hopen.1⟩

/-- Discovery alone starts a server, and keeps it. -/
theorem announced_stays_open_started : ∃ s,
    exec step new [.startDiscovery, .go true, .go true, .go true, .go true] = some s ∧
    s.announced = some 0 ∧ s.current = some 0 ∧ (s.servers 0).closing = false := by
  refine ⟨_, rfl, rfl, ?_⟩
  refine announced_stays_open
    (h := (rfl : exec step new [.startDiscovery, .go true, .go true, .go true, .go true] = _)) ?_
      rfl
  refine ⟨by simp [NoneCloses], fun s₁ h₁ => ?_⟩
  obtain rfl := Option.some.inj h₁
  refine ⟨by simp [NoneCloses, goTo], fun s₂ h₂ => ?_⟩
  obtain rfl := Option.some.inj h₂
  refine ⟨by simp [NoneCloses, goTo, new], fun s₃ h₃ => ?_⟩
  obtain rfl := Option.some.inj h₃
  refine ⟨by simp [NoneCloses, goTo, test, new], fun s₄ h₄ => ?_⟩
  obtain rfl := Option.some.inj h₄
  exact ⟨by simp [NoneCloses, start], fun _ _ => trivial⟩

/-- Receive on, an offer, Receive off, and the offer's end has seen both flags off. -/
def closingRun : List Act :=
  [.startReceiving, .go true, .go true, .go true, .go true, .server 0 (.prepare 0 ⟨.v4 1, []⟩),
    .server 0 (.claim 0 Server.oneFile), .stopReceiving, .go true, .go true, .go true, .go true,
    .server 0 (.seeCancelled 0), .server 0 (.dropGuard 0), .server 0 (.free false),
    .server 0 (.free false)]

/-- Discovery keeps the server, which closes all the same. -/
theorem announced_closes : ∃ s, exec step new
      (closingRun ++ [.startDiscovery, .go true, .go true, .go true, .server 0 (.free true)]) =
        some s ∧
    s.announced = some 0 ∧ s.call = none ∧ (s.servers 0).closing = true :=
  ⟨_, rfl, rfl, rfl, rfl⟩

end Adapter

end Sukkula.LocalSend
