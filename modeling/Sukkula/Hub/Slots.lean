import Sukkula.Library.Tasks
import Sukkula.Library.Transition

/-! # Counted slots

`slots.rs` counts the slots that are taken in one atomic number, with a loop of
compare-and-swap to take one and another to give it back. Any number of threads
are in these loops at once. What a thread reads need not be the newest value, only
none older than what it has seen; what it swaps is the newest, if it swaps at all.
-/

namespace Sukkula

open Transition Tasks

/-- `usize::MAX` -/
def usizeMax : ℕ := 2 ^ 64 - 1

namespace Slots

/-- Where a call of `take` is, and later the slot that it took. -/
inductive Pc
  | taking
  | swapping (n : ℕ)
  | refused
  | holding
  -- `give_back`, when the slot is dropped.
  | givingBack
  | swappingBack (n : ℕ)
  | done
  deriving DecidableEq, Repr

namespace Pc

/-- A load, or a `compare_exchange_weak` that did not swap: the loop goes on with what was read. -/
def read (max n : ℕ) : Pc → Option Pc
  | .taking | .swapping _ => some (if max ≤ n then .refused else .swapping n)
  | .givingBack | .swappingBack _ => some (if 0 < n then .swappingBack n else .done)
  | _ => none

/-- A `compare_exchange_weak` that swapped, with the new value. -/
def swap (usizeMax n : ℕ) : Pc → Option (ℕ × Pc)
  | .swapping m => if m = n then some (min (n + 1) usizeMax, .holding) else none
  | .swappingBack m => if m = n then some (n - 1, .done) else none
  | _ => none

/-- In the loop of `take`, with what it read below the maximum. -/
def InTake (max : ℕ) : Pc → Prop
  | .taking => True
  | .swapping n => n < max
  | _ => False

/-- From the swap that took the slot to the swap that gives it back. -/
def holds : Pc → Bool
  | .holding | .givingBack | .swappingBack _ => true
  | _ => false

variable {usizeMax max n n' : ℕ} {pc pc' : Pc}

theorem InTake.read (h : pc.InTake max) (hread : pc.read max n = some pc') :
    pc' = .refused ∨ pc'.InTake max := by
  cases pc with
  | taking | swapping m =>
    obtain rfl := Option.some.inj hread
    split_ifs with hmax
    · exact Or.inl rfl
    · exact Or.inr (not_le.mp hmax)
  | refused | holding | givingBack | swappingBack m | done => exact h.elim

theorem InTake.swap (husize : max ≤ usizeMax) (h : pc.InTake max)
    (hswap : pc.swap usizeMax n = some (n', pc')) : n < max ∧ n' = n + 1 ∧ pc' = .holding := by
  cases pc with
  | swapping m =>
    rw [Pc.swap] at hswap
    split_ifs at hswap with hm
    obtain ⟨rfl, rfl⟩ := Prod.mk.inj (Option.some.inj hswap)
    have hlt : n < max := hm ▸ h
    exact ⟨hlt, min_eq_left (Nat.succ_le_of_lt (hlt.trans_le husize)), rfl⟩
  | taking => cases hswap
  | refused | holding | givingBack | swappingBack m | done => exact h.elim

end Pc

structure Call where
  -- The newest value that its thread had seen, and the newest that it has seen itself.
  since : ℕ
  seen : ℕ
  pc : Pc
  deriving DecidableEq, Repr

inductive Act
  | call (since : ℕ)
  -- The call `i` reads the value `k`.
  | read (i k : ℕ)
  | swap (i : ℕ)
  | drop (i : ℕ)
  deriving DecidableEq, Repr

end Slots

/-- The values that the count has had, in their order, and the calls. -/
structure Slots where
  values : List ℕ := [0]
  calls : List Slots.Call := []
  deriving DecidableEq, Repr

namespace Slots

def step (usizeMax max : ℕ) (s : Slots) : Act → Option Slots
  | .call since =>
    if since < s.values.length then some { s with calls := s.calls ++ [⟨since, since, .taking⟩] }
    else none
  | .read i k => do
    let c ← s.calls[i]?
    let n ← s.values[k]?
    if k < c.seen then none
    else
      let pc' ← c.pc.read max n
      some { s with calls := s.calls.set i { c with seen := k, pc := pc' } }
  | .swap i => do
    let c ← s.calls[i]?
    let n ← s.values.getLast?
    let (n', pc') ← c.pc.swap usizeMax n
    some ⟨s.values ++ [n'], s.calls.set i { c with seen := s.values.length, pc := pc' }⟩
  | .drop i => do
    let c ← s.calls[i]?
    if c.pc = .holding then some { s with calls := s.calls.set i { c with pc := .givingBack } }
    else none

def held (s : Slots) : ℕ := s.calls.countP (·.pc.holds)

section Step

variable {usizeMax max : ℕ} {s s' : Slots} {i k since : ℕ}

theorem step_read (h : step usizeMax max s (.read i k) = some s') :
    ∃ c n pc', s.calls[i]? = some c ∧ s.values[k]? = some n ∧ c.seen ≤ k ∧
    c.pc.read max n = some pc' ∧
      s' = { s with calls := s.calls.set i { c with seen := k, pc := pc' } } := by
  obtain ⟨c, hc, h⟩ := Option.bind_eq_some_iff.mp h
  obtain ⟨n, hn, h⟩ := Option.bind_eq_some_iff.mp h
  split_ifs at h with hk
  obtain ⟨pc', hpc, h⟩ := Option.bind_eq_some_iff.mp h
  exact ⟨c, n, pc', hc, hn, not_lt.mp hk, hpc, (Option.some.inj h).symm⟩

theorem step_swap (h : step usizeMax max s (.swap i) = some s') :
    ∃ c n n' pc', s.calls[i]? = some c ∧ s.values.getLast? = some n ∧ c.pc.swap usizeMax n =
    some (n', pc') ∧
      s' = ⟨s.values ++ [n'], s.calls.set i { c with seen := s.values.length, pc := pc' }⟩ := by
  obtain ⟨c, hc, h⟩ := Option.bind_eq_some_iff.mp h
  obtain ⟨n, hn, h⟩ := Option.bind_eq_some_iff.mp h
  obtain ⟨⟨n', pc'⟩, hpc, h⟩ := Option.bind_eq_some_iff.mp h
  exact ⟨c, n, n', pc', hc, hn, hpc, (Option.some.inj h).symm⟩

theorem step_drop (h : step usizeMax max s (.drop i) = some s') :
    ∃ c, s.calls[i]? = some c ∧ c.pc = .holding ∧
      s' = { s with calls := s.calls.set i { c with pc := .givingBack } } := by
  obtain ⟨c, hc, h⟩ := Option.bind_eq_some_iff.mp h
  split_ifs at h with hpc
  exact ⟨c, hc, hpc, (Option.some.inj h).symm⟩

end Step

/-- What is known of a call: a slot that is held is counted in every value it can still read. -/
structure CallOk (max : ℕ) (values : List ℕ) (c : Call) : Prop where
  since : c.since ≤ c.seen
  seen : c.seen < values.length
  counted : c.pc.holds → ∀ k n, c.seen ≤ k → values[k]? = some n → 0 < n
  swapping : ∀ n, c.pc = .swapping n → n < max
  refused : c.pc = .refused → ∃ n, values[c.seen]? = some n ∧ max ≤ n

structure Inv (max : ℕ) (s : Slots) : Prop where
  current : s.values.getLast? = some s.held
  bounded : ∀ n ∈ s.values, n ≤ max
  calls : ∀ c ∈ s.calls, CallOk max s.values c

section Inv

variable {usizeMax max n n' i k : ℕ} {s s' : Slots} {c : Call} {pc' : Pc}
  {values : List ℕ} {a : Act}

theorem eq_of_getElem?_append {m : ℕ} (hk : values.length ≤ k) (h : (values ++ [n])[k]? = some m) :
    m = n := by
  rw [List.getElem?_append_right hk] at h
  exact List.mem_singleton.mp (List.mem_of_getElem? h)

theorem CallOk.append (h : CallOk max values c) (hn : c.pc.holds → 0 < n) :
    CallOk max (values ++ [n]) c := by
  constructor
  · exact h.since
  · rw [List.length_append]
    exact Nat.lt_add_right _ h.seen
  · intro hholds k m hk hm
    rcases lt_or_ge k values.length with hlt | hge
    · rw [List.getElem?_append_left hlt] at hm
      exact h.counted hholds k m hk hm
    · rw [eq_of_getElem?_append hge hm]
      exact hn hholds
  · exact h.swapping
  · intro hpc
    obtain ⟨m, hm, hmax⟩ := h.refused hpc
    exact ⟨m, by rw [List.getElem?_append_left h.seen, hm], hmax⟩

theorem CallOk.read (h : CallOk max values c) (hk : c.seen ≤ k) (hn : values[k]? = some n)
    (hpc : c.pc.read max n = some pc') :
    pc'.holds = c.pc.holds ∧ CallOk max values { c with seen := k, pc := pc' } := by
  have hlt : k < values.length := (List.getElem?_eq_some_iff.mp hn).1
  have hsince := h.since.trans hk
  unfold Pc.read at hpc
  split at hpc
  case h_5 => cases hpc
  -- In `take` no slot is held yet.
  case h_1 hc | h_2 hc =>
    obtain rfl := Option.some.inj hpc
    by_cases hmax : max ≤ n
    · rw [if_pos hmax, hc]
      exact ⟨rfl, hsince, hlt, nofun, nofun, fun _ => ⟨n, hn, hmax⟩⟩
    · rw [if_neg hmax, hc]
      refine ⟨rfl, hsince, hlt, nofun, fun m hm => ?_, nofun⟩
      obtain rfl := Pc.swapping.inj hm
      exact not_le.mp hmax
  -- In `give_back` the slot is counted in what was read, so the loop does not end here.
  case h_3 hc | h_4 hc =>
    have hholds : c.pc.holds := by rw [hc]; rfl
    have hpos := h.counted hholds k n hk hn
    rw [if_pos hpos] at hpc
    obtain rfl := Option.some.inj hpc
    refine ⟨by rw [hc]; rfl, hsince, hlt, fun _ m v hm => h.counted hholds m v (hk.trans hm), nofun,
      nofun⟩

/-- A swap of the newest value changes the count as it changes who holds a slot. -/
theorem CallOk.swap (h : CallOk max values c) (husize : max ≤ usizeMax)
    (hpc : c.pc.swap usizeMax n = some (n', pc')) :
    (c.pc.holds = false ∧ pc' = .holding ∧ n < max ∧ n' = n + 1) ∨
      (c.pc.holds ∧ pc' = .done ∧ n' = n - 1) := by
  unfold Pc.swap at hpc
  split at hpc
  · rename_i m hc
    split_ifs at hpc with hm
    obtain ⟨rfl, rfl⟩ := Prod.mk.inj (Option.some.inj hpc)
    have hlt := h.swapping m hc
    refine Or.inl ⟨by rw [hc]; rfl, rfl, hm ▸ hlt, min_eq_left ?_⟩
    omega
  · rename_i m hc
    split_ifs at hpc with hm
    obtain ⟨rfl, rfl⟩ := Prod.mk.inj (Option.some.inj hpc)
    exact Or.inr ⟨by rw [hc]; rfl, rfl, rfl⟩
  · cases hpc

theorem Inv.start : Inv max {} where
  current := rfl
  bounded n hn := by
    rw [List.mem_singleton.mp hn]
    exact Nat.zero_le max
  calls := nofun

theorem Inv.step (husize : max ≤ usizeMax) (hinv : Inv max s)
    (h : step usizeMax max s a = some s') : Inv max s' := by
  cases a with
  | call since =>
    rw [Slots.step] at h
    split_ifs at h with hlt
    obtain rfl := Option.some.inj h
    constructor
    · rw [hinv.current, held, held, List.countP_append]
      rfl
    · exact hinv.bounded
    · exact forall_mem_snoc hinv.calls ⟨le_rfl, hlt, nofun, nofun, nofun⟩
  | read i k =>
    obtain ⟨c, n, pc', hc, hn, hk, hpc, rfl⟩ := step_read h
    obtain ⟨hholds, hok⟩ := (hinv.calls c (List.mem_of_getElem? hc)).read hk hn hpc
    have hcount := countP_set_add (·.pc.holds) { c with seen := k, pc := pc' } hc
    rw [hholds] at hcount
    constructor
    · rw [hinv.current, held, held, Nat.add_right_cancel hcount]
    · exact hinv.bounded
    · exact forall_mem_set hinv.calls hok
  | swap i =>
    obtain ⟨c, n, n', pc', hc, hn, hpc, rfl⟩ := step_swap h
    have hok := hinv.calls c (List.mem_of_getElem? hc)
    have hcount := countP_set_add (·.pc.holds) { c with seen := s.values.length, pc := pc' } hc
    obtain rfl : s.held = n := Option.some.inj (hinv.current.symm.trans hn)
    have hn' : n' = (s.calls.set i { c with seen := s.values.length, pc := pc' }).countP
      (·.pc.holds) ∧ n' ≤ max := by
      have hle := hinv.bounded s.held (List.mem_of_getLast? hn)
      rcases hok.swap husize hpc with ⟨hholds, rfl, hlt, rfl⟩ | ⟨hholds, rfl, rfl⟩
      · rw [hholds] at hcount
        exact ⟨hcount.symm, hlt⟩
      · rw [hholds] at hcount
        exact ⟨Nat.sub_eq_of_eq_add hcount.symm, by omega⟩
    have hpos : ∀ d ∈ s.calls.set i { c with seen := s.values.length, pc := pc' },
      d.pc.holds → 0 < n' := by
      intro d hd hholds
      rw [hn'.1]
      exact List.countP_pos_iff.mpr ⟨d, hd, hholds⟩
    constructor
    · rw [List.getLast?_concat, hn'.1]
      rfl
    · exact forall_mem_snoc hinv.bounded hn'.2
    · intro d hd
      rcases List.mem_or_eq_of_mem_set hd with hd' | rfl
      · exact (hinv.calls d hd').append (hpos d hd)
      · refine ⟨hok.since.trans hok.seen.le, by simp, fun hholds k m hk hm => ?_, ?_, ?_⟩
        · rw [eq_of_getElem?_append hk hm]
          exact hpos _ hd hholds
        · rcases hok.swap husize hpc with ⟨-, rfl, -⟩ | ⟨-, rfl, -⟩ <;> exact nofun
        · rcases hok.swap husize hpc with ⟨-, rfl, -⟩ | ⟨-, rfl, -⟩ <;> exact nofun
  | drop i =>
    obtain ⟨c, hc, hpc, rfl⟩ := step_drop h
    have hok := hinv.calls c (List.mem_of_getElem? hc)
    have hholds : c.pc.holds := by rw [hpc]; rfl
    have hcount := countP_set_add (·.pc.holds) { c with pc := .givingBack } hc
    rw [hholds] at hcount
    constructor
    · rw [hinv.current, held, held, Nat.add_right_cancel hcount]
    · exact hinv.bounded
    · exact forall_mem_set hinv.calls ⟨hok.since, hok.seen, fun _ => hok.counted hholds, nofun,
        nofun⟩

end Inv

section Alone

variable {usizeMax max i : ℕ} {s : Slots} {c : Call}

def newest (s : Slots) : ℕ := s.values.length - 1

theorem Inv.getElem?_newest (hinv : Inv max s) : s.values[s.newest]? = some s.held := by
  rw [newest, ← List.getLast?_eq_getElem?]
  exact hinv.current

theorem Inv.seen_le_newest (hinv : Inv max s) (hc : s.calls[i]? = some c) : c.seen ≤ s.newest :=
  Nat.le_sub_one_of_lt (hinv.calls c (List.mem_of_getElem? hc)).seen

theorem Inv.step_newest (usizeMax : ℕ) {pc' : Pc} (hinv : Inv max s) (hc : s.calls[i]? = some c)
    (hpc : c.pc.read max s.held = some pc') :
    Slots.step usizeMax max s (.read i s.newest) =
      some { s with calls := s.calls.set i { c with seen := s.newest, pc := pc' } } := by
  have hle : ¬ s.newest < c.seen := not_lt.mpr (hinv.seen_le_newest hc)
  simp [Slots.step, hc, hinv.getElem?_newest, hle, hpc]

theorem Inv.step_swap (usizeMax : ℕ) {n' : ℕ} {pc' : Pc} (hinv : Inv max s)
    (hc : s.calls[i]? = some c) (hpc : c.pc.swap usizeMax s.held = some (n', pc')) :
    Slots.step usizeMax max s (.swap i) =
      some ⟨s.values ++ [n'], s.calls.set i { c with seen := s.values.length, pc := pc' }⟩ := by
  simp [Slots.step, hc, hinv.current, hpc]

theorem Inv.held_eq {s' : Slots} (hinv : Inv max s) (hinv' : Inv max s')
    (h : s'.values = s.values) : s'.held = s.held := by
  have hcurrent := hinv'.current
  rw [h, hinv.current] at hcurrent
  exact (Option.some.inj hcurrent).symm

/-- A call that reads the newest value and is then let alone swaps it. -/
theorem Inv.read_swap (p p' : Pc) (n' : ℕ) (husize : max ≤ usizeMax) (hinv : Inv max s)
    (hc : s.calls[i]? = some c) (hread : c.pc.read max s.held = some p)
    (hswap : p.swap usizeMax s.held = some (n', p')) :
    ∃ s' c', exec (Slots.step usizeMax max) s [.read i s.newest, .swap i] = some s' ∧
      s'.calls[i]? = some c' ∧ c'.pc = p' ∧ s'.held = n' := by
  have hstep := hinv.step_newest usizeMax hc hread
  have hinv₁ := hinv.step husize hstep
  have hheld := hinv.held_eq hinv₁ rfl
  have hc₁ := getElem?_set_same { c with seen := s.newest, pc := p } hc
  have hstep₁ := hinv₁.step_swap usizeMax hc₁ (hheld ▸ hswap)
  have hinv₂ := hinv₁.step husize hstep₁
  refine ⟨_, _, exec_cons_eq_some.mpr ⟨_, hstep, exec_cons_eq_some.mpr ⟨_, hstep₁, rfl⟩⟩,
    getElem?_set_same _ hc₁, rfl, ?_⟩
  have hcurrent := hinv₂.current
  rw [List.getLast?_concat] at hcurrent
  exact (Option.some.inj hcurrent).symm

theorem Inv.take_alone (husize : max ≤ usizeMax) (hinv : Inv max s) (hc : s.calls[i]? = some c)
    (hpc : c.pc = .taking) (hfree : s.held < max) :
    ∃ s' c', exec (Slots.step usizeMax max) s [.read i s.newest, .swap i] = some s' ∧
      s'.calls[i]? = some c' ∧ c'.pc = .holding ∧ s'.held = s.held + 1 := by
  have hread : c.pc.read max s.held = some (.swapping s.held) := by
    rw [hpc, Pc.read, if_neg (not_le.mpr hfree)]
  have hmin : min (s.held + 1) usizeMax = s.held + 1 := min_eq_left (by omega)
  refine hinv.read_swap _ _ _ husize hc hread ?_
  rw [Pc.swap, if_pos rfl, hmin]

theorem Inv.give_back_alone (husize : max ≤ usizeMax) (hinv : Inv max s) (hc : s.calls[i]? = some c)
    (hpc : c.pc = .holding) :
    ∃ s' c', exec (Slots.step usizeMax max) s [.drop i, .read i s.newest, .swap i] = some s' ∧
      s'.calls[i]? = some c' ∧ c'.pc = .done ∧ s'.held + 1 = s.held := by
  have hstep : Slots.step usizeMax max s (.drop i) =
      some { s with calls := s.calls.set i { c with pc := .givingBack } } := by
    simp [Slots.step, hc, hpc]
  have hinv₁ := hinv.step husize hstep
  have hheld := hinv.held_eq hinv₁ rfl
  have hpos : 0 < s.held := List.countP_pos_iff.mpr ⟨c, List.mem_of_getElem? hc, by rw [hpc]; rfl⟩
  obtain ⟨s', c', hrun, hc', hdone, hheld'⟩ :=
    hinv₁.read_swap (.swappingBack s.held) .done (s.held - 1)
    husize (getElem?_set_same _ hc) (by rw [hheld, Pc.read, if_pos hpos])
      (by rw [hheld, Pc.swap, if_pos rfl])
  exact ⟨s', c', exec_cons_eq_some.mpr ⟨_, hstep, hrun⟩, hc', hdone, by omega⟩

end Alone

/-- In whatever order the threads take their steps and however old the values are that they read,
the count is the number of slots that are held, and never above the most. A call that was refused
saw all of them taken, at a moment no older than what its thread knew; no slot is lost when it is
given back; and a call that is let alone takes a slot if one is free. -/
theorem slots_counted (usizeMax max : ℕ) (husize : max ≤ usizeMax) (acts : List Act) (s : Slots)
    (hrun : exec (step usizeMax max) {} acts = some s) :
    s.values.getLast? = some s.held ∧ s.held ≤ max ∧ (∀ n ∈ s.values, n ≤ max) ∧
    (∀ c ∈ s.calls, c.pc = .refused → ∃ k, c.since ≤ k ∧ s.values[k]? = some max) ∧
    (∀ i c, s.calls[i]? = some c → c.pc = .taking → s.held < max →
      ∃ s' c', exec (step usizeMax max) s [.read i s.newest, .swap i] = some s' ∧
        s'.calls[i]? = some c' ∧ c'.pc = .holding ∧ s'.held = s.held + 1) ∧
    (∀ i c, s.calls[i]? = some c → c.pc = .holding →
      ∃ s' c', exec (step usizeMax max) s [.drop i, .read i s.newest, .swap i] = some s' ∧
        s'.calls[i]? = some c' ∧ c'.pc = .done ∧ s'.held + 1 = s.held) := by
  have hinv : Inv max s := exec_invariant (fun s a s' h hs => h.step husize hs) Inv.start hrun
  refine ⟨hinv.current, hinv.bounded _ (List.mem_of_getLast? hinv.current),
    hinv.bounded, ?_, ?_, ?_⟩
  · intro c hc hpc
    have hok := hinv.calls c hc
    obtain ⟨n, hn, hmax⟩ := hok.refused hpc
    have hle := hinv.bounded n (List.mem_of_getElem? hn)
    exact ⟨c.seen, hok.since, by rw [hn, le_antisymm hle hmax]⟩
  · intro i c hc hpc hfree
    exact hinv.take_alone husize hc hpc hfree
  · intro i c hc hpc
    exact hinv.give_back_alone husize hc hpc

/-- Two calls for one slot: the second reads what was there before the first took it, cannot swap,
and is refused; when the slot is back there is none taken. -/
theorem slots_counted_one : ∃ s, exec (step (2 ^ 32 - 1) 1) {}
    [.call 0, .call 0, .read 0 0, .read 1 0, .swap 0, .read 1 1, .drop 0, .read 0 1, .swap 0] =
    some s ∧
      s.values = [0, 1, 0] ∧ s.held = 0 ∧ s.held ≤ 1 := by
  have hrun : exec (step (2 ^ 32 - 1) 1) {}
      [.call 0, .call 0, .read 0 0, .read 1 0, .swap 0, .read 1 1, .drop 0, .read 0 1, .swap 0] =
        some ⟨[0, 1, 0], [⟨0, 2, .done⟩, ⟨0, 1, .refused⟩]⟩ := by decide +kernel
  obtain ⟨-, hle, -⟩ := slots_counted (2 ^ 32 - 1) 1 (by decide) _ _ hrun
  exact ⟨_, hrun, rfl, rfl, hle⟩

end Slots

end Sukkula
