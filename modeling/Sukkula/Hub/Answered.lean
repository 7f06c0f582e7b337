import Sukkula.Hub.Replies

/-! # Every command is answered once

The slots that are taken are those of the commands whose reply is not out of
the gate yet, and the gate has the slot of each reply it holds exactly once. So
a command whose task is over was answered once, and its slot is given back once.
-/

namespace Sukkula.Hub

open LocalSend Transition

variable {α : Type*} {len : Event α → ℕ}

/-- The slot that goes with what the delivery thread has. -/
def Runner.permit : Runner α → List ℕ
  | .handing item | .calling item => item.permit.toList
  | .returned permit => permit.toList
  | _ => []

namespace Gate

variable {g g' : Gate α} {drops : List ℕ}

def kept (g : Gate α) : List ℕ := g.runner.permit ++ permits g.items

def Act.permit : Act α → List ℕ
  | .push _ _ permit => permit.toList
  | _ => []

theorem permits_cons (item : Queued α) (items : List (Queued α)) :
    permits (item :: items) = item.permit.toList ++ permits items := by
  cases h : item.permit <;> simp [permits, h]

/-- No slot is lost or doubled at the gate, and only a push is logged. -/
theorem kept_step {a : Act α} (h : g.stepDrops len a = some (g', drops)) (hinv : g.Inv) :
    (g'.kept ++ drops).Perm (g.kept ++ a.permit) := by
  cases a with
  | push inDelivery event permit =>
    rcases push_cases h with ⟨rfl, rfl, -⟩ | ⟨rfl, -, event', bytes, -, -, rfl⟩
    · exact .refl _
    · cases permit <;> simp [kept, permits, Act.permit]
  | close finish =>
    have he : g.close finish = (g', drops) := Option.some.inj h
    rcases close_cases g finish with ⟨-, -, hc⟩ | ⟨-, -, hc⟩ | ⟨-, hc⟩ <;> rw [hc] at he <;>
      obtain ⟨rfl, rfl⟩ := Prod.mk.inj he <;> simp [kept, permits, Act.permit]
  | take =>
    obtain ⟨x, hx, he⟩ := Option.map_eq_some_iff.mp h
    obtain ⟨rfl, rfl⟩ := Prod.mk.inj he
    obtain ⟨hr, ⟨-, rfl⟩ | ⟨-, -, rfl⟩ | ⟨-, item, items, hi, rfl⟩⟩ := take_cases hx
    · simp [kept, hr, Runner.permit, Act.permit]
    · simp [kept, hr, Runner.permit, Act.permit]
    · simp [kept, hr, hi, permits_cons, Runner.permit, Act.permit]
  | deliver =>
    simp only [stepDrops, deliver] at h
    split at h
    · obtain ⟨rfl, rfl⟩ := Prod.mk.inj (Option.some.inj h)
      simp [kept, Runner.permit, Act.permit, *]
    · obtain ⟨rfl, rfl⟩ := Prod.mk.inj (Option.some.inj h)
      simp [kept, Runner.permit, Act.permit, *]
    · obtain ⟨rfl, rfl⟩ := Prod.mk.inj (Option.some.inj h)
      simpa [kept, Runner.permit, Act.permit, *] using List.perm_append_comm
    · obtain ⟨rfl, rfl⟩ := Prod.mk.inj (Option.some.inj h)
      simp [kept, Runner.permit, Act.permit, *]
    · rename_i hr
      obtain ⟨rfl, rfl⟩ := Prod.mk.inj (Option.some.inj h)
      have hempty := (hinv.done (by rw [hr]; trivial)).2
      simp [kept, hr, hempty, permits, Runner.permit, Act.permit]
    · cases h

theorem kept_perm {a : Act α} (h : g.stepDrops len a = some (g', drops)) (hinv : g.Inv)
    (ha : a.permit = []) : (g'.kept ++ drops).Perm g.kept := by
  have hperm := kept_step h hinv
  rwa [ha, List.append_nil] at hperm

theorem log_close (g : Gate α) (finish : Finish) : (g.close finish).1.log = g.log := by
  rcases close_cases g finish with ⟨-, -, hc⟩ | ⟨-, -, hc⟩ | ⟨-, hc⟩ <;> rw [hc]

theorem log_take (h : g.take = some g') : g'.log = g.log := by
  obtain ⟨-, ⟨-, rfl⟩ | ⟨-, -, rfl⟩ | ⟨-, item, items, -, rfl⟩⟩ := take_cases h <;> rfl

theorem log_deliver (h : g.deliver = some (g', drops)) : g'.log = g.log := by
  unfold deliver at h
  split at h <;> cases h <;> rfl

theorem log_push {inDelivery : Bool} {event : Event α} {permit : Option ℕ}
    (h : g.push len inDelivery event permit = some (g', drops)) :
    g'.log = g.log ++ g'.log.drop g.log.length := by
  rcases push_cases h with ⟨rfl, -⟩ | ⟨-, -, event', bytes, -, -, rfl⟩
  · simp
  · simp

end Gate

/-- The reply that takes the place of one that is too large is not too large. -/
def Short (len : Event α → ℕ) : Prop :=
  ∀ id, len (.reply id (.error ⟨.internal, "the reply was too large"⟩)) ≤ maxEventBytes

theorem fit_reply (hlen : Short len) (id : UInt64) (result : Except ErrorInfo (Option UInt64)) :
    ∃ result' bytes, fit len (.reply id result) = some (.reply id result', bytes) := by
  have hr : encodedLen len (.reply id (.error ⟨.internal, "the reply was too large"⟩)) ≠ none := by
    simp [encodedLen, hlen id]
  obtain ⟨n, hn⟩ := Option.ne_none_iff_exists'.mp hr
  unfold fit
  split
  · exact ⟨_, _, rfl⟩
  · simp [replacement, hn]

/-- Its task is over but for the drop of a guard that has nothing left. -/
def Command.Answered : Command → Prop
  | .sent _ | .ended => True
  | _ => False

/-- The slot of a command whose reply was pushed: with the gate, or on its way back. -/
def Out (kept : Prop) (pc : Slots.Pc) : Prop :=
  (pc = .holding ∧ kept) ∨ ((pc = .givingBack ∨ (∃ n, pc = .swappingBack n) ∨ pc = .done) ∧ ¬ kept)

/-- How far a command and its slot are, and whether the gate has the slot. -/
def Command.Fits (k : ℕ) (id : UInt64) (kept : Prop) (pc : Slots.Pc) : Command → Prop
  | .idle => pc = .taking ∧ ¬ kept
  | .calling =>
  (pc = .taking ∨ (∃ n < maxInFlightCommands, pc = .swapping n) ∨ pc = .holding) ∧ ¬ kept
  | .refused _ => (pc = .taking ∨ pc = .refused) ∧ ¬ kept
  | .running guard => guard = ⟨id, some k⟩ ∧ pc = .holding ∧ ¬ kept
  | .sent guard => guard.permit = none ∧ Out kept pc
  | .ended => Out kept pc

def OneReply (k : ℕ) (id : UInt64) (pushes : List (Pushed α)) : Prop :=
  ∃ result result' opened, pushes =
    [⟨.reply id result, some k, opened, if opened then [.reply id result'] else []⟩]

namespace Command.Fits

variable {c : Command} {k : ℕ} {id : UInt64} {kept kept' : Prop} {pc pc' : Slots.Pc}

/-- Only the slot of a reply that is out of the gate is given back. -/
theorem givingBack (h : c.Fits k id kept pc) (hpc : pc = .givingBack ∨ ∃ n, pc = .swappingBack n) :
    c.Answered ∧ ¬ kept := by
  rcases hpc with rfl | ⟨n, rfl⟩ <;> cases c <;> simp_all [Fits, Out, Answered]

theorem swapping {n : ℕ} (h : c.Fits k id kept (.swapping n)) :
    c = .calling ∧ n < maxInFlightCommands ∧ ¬ kept := by
  cases c <;> simp_all [Fits, Out]

theorem of_kept (h : c.Fits k id kept pc) (hkept : kept) : c.Answered ∧ pc = .holding := by
  cases c <;> simp_all [Fits, Out, Answered]

theorem move (h : c.Fits k id kept pc) (hans : c.Answered) (hout : Out kept' pc') :
    c.Fits k id kept' pc' := by
  cases c with
  | sent guard => exact ⟨h.1, hout⟩
  | ended => exact hout
  | idle | calling | refused | running => exact hans.elim

end Command.Fits

namespace Commands

variable {s s' : Commands α} {k : ℕ}

def holders (s : Commands α) : Set ℕ := {k | (s.slot k).holds}

/-- What was pushed with the slot of a command. -/
def pushes (s : Commands α) (k : ℕ) : List (Pushed α) := s.pushed.filter (·.permit = some k)

structure Ok (s : Commands α) (k : ℕ) : Prop where
  fits : (s.command k).Fits k (s.input k).id (k ∈ s.gate.kept) (s.slot k)
  pushed : (s.command k).Answered → OneReply k (s.input k).id (s.pushes k)
  unpushed : ¬ (s.command k).Answered → s.pushes k = []
  given : s.given.count k = if s.slot k = .done then 1 else 0

structure Inv (s : Commands α) : Prop where
  gate : s.gate.Inv
  kept : s.gate.kept.Nodup
  finite : s.holders.Finite
  count : s.inFlight = s.holders.ncard
  bound : s.inFlight ≤ maxInFlightCommands
  logged : s.gate.log = s.pushed.flatMap Pushed.took
  ok : ∀ k, s.Ok k

namespace Inv

theorem new : (Commands.new : Commands α).Inv := by
  have hnone : (Commands.new : Commands α).holders = ∅ := by
    ext k
    simp [holders, Commands.new, Slots.Pc.holds]
  constructor
  · exact Gate.Inv.new
  · simp [Commands.new, Gate.new, Gate.kept, Runner.permit, Gate.permits]
  · rw [hnone]
    exact Set.finite_empty
  · rw [hnone]
    simp [Commands.new]
  · exact Nat.zero_le _
  · rfl
  · intro k
    refine ⟨⟨rfl, ?_⟩, fun h => h.elim, fun _ => rfl, rfl⟩
    simp [Commands.new, Gate.new, Gate.kept, Runner.permit, Gate.permits]

end Inv

theorem Ok.congr (h : s.Ok k) (hcommand : s'.command k = s.command k) (hslot : s'.slot k = s.slot k)
    (hinput : s'.input k = s.input k) (hkept : k ∈ s'.gate.kept ↔ k ∈ s.gate.kept)
    (hpushes : s'.pushes k = s.pushes k) (hgiven : s'.given.count k = s.given.count k) :
    s'.Ok k := by
  constructor
  · rw [hcommand, hslot, hinput, propext hkept]
    exact h.fits
  · rw [hcommand, hinput, hpushes]
    exact h.pushed
  · rw [hcommand, hpushes]
    exact h.unpushed
  · rw [hgiven, hslot]
    exact h.given

theorem holders_eq (h : ∀ j, (s'.slot j).holds = (s.slot j).holds) : s'.holders = s.holders := by
  ext j
  simp [holders, h j]

theorem Inv.move (h : s.Inv) (hgate : s'.gate = s.gate) (hpushed : s'.pushed = s.pushed)
    (hgiven : s'.given = s.given) (hinFlight : s'.inFlight = s.inFlight)
    (hrest : ∀ j ≠ k, s'.command j = s.command j ∧ s'.slot j = s.slot j ∧ s'.input j = s.input j)
    (hholds : (s'.slot k).holds = (s.slot k).holds) (hok : s'.Ok k) : s'.Inv := by
  have hholders : s'.holders = s.holders := by
    refine holders_eq fun j => ?_
    by_cases hj : j = k
    · exact hj ▸ hholds
    · rw [(hrest j hj).2.1]
  refine ⟨hgate ▸ h.gate, hgate ▸ h.kept, hholders ▸ h.finite, ?_, hinFlight ▸ h.bound,
    ?_, fun j => ?_⟩
  · rw [hinFlight, h.count, hholders]
  · rw [hgate, hpushed, h.logged]
  · by_cases hj : j = k
    · exact hj ▸ hok
    · obtain ⟨hcommand, hslot, hinput⟩ := hrest j hj
      exact (h.ok j).congr hcommand hslot hinput (by rw [hgate]) (by rw [pushes, pushes, hpushed])
        (by rw [hgiven])

theorem rest_set {c : Command} (j : ℕ) (hj : j ≠ k) : (s.set k c).command j = s.command j ∧
    (s.set k c).slot j = s.slot j ∧ (s.set k c).input j = s.input j :=
  ⟨Function.update_of_ne hj _ _, rfl, rfl⟩

theorem rest_setSlot {p : Slots.Pc} (j : ℕ) (hj : j ≠ k) :
    (s.setSlot k p).command j = s.command j ∧ (s.setSlot k p).slot j = s.slot j ∧
      (s.setSlot k p).input j = s.input j :=
  ⟨rfl, Function.update_of_ne hj _ _, rfl⟩

@[simp] theorem command_set (c : Command) : (s.set k c).command k = c := Function.update_self ..

@[simp] theorem slot_setSlot (pc : Slots.Pc) : (s.setSlot k pc).slot k = pc :=
  Function.update_self ..

theorem Inv.inFlight_pos (h : s.Inv) (hk : (s.slot k).holds) : 0 < s.inFlight := by
  rw [h.count, Set.ncard_pos h.finite]
  exact ⟨k, hk⟩

theorem Inv.read (h : s.Inv) (hs : s.read k = some s') : s'.Inv := by
  have hok := h.ok k
  have hfits := hok.fits
  have hgiven := hok.given
  unfold Commands.read at hs
  split_ifs at hs with hmay
  obtain ⟨pc, hpc, rfl⟩ := Option.map_eq_some_iff.mp hs
  unfold Slots.Pc.read at hpc
  split at hpc
  case h_5 => cases hpc
  -- In `take`: the call has no slot yet.
  case h_1 hslot | h_2 hslot =>
    have hcall : s.command k = .calling := by simpa [hslot, Slots.Pc.holds] using hmay
    have hnone := hok.unpushed (by simp [hcall, Command.Answered])
    rw [hslot] at hgiven
    rw [hcall] at hfits
    obtain rfl := Option.some.inj hpc
    by_cases hmax : maxInFlightCommands ≤ s.inFlight
    · rw [if_pos hmax, if_pos rfl]
      refine h.move rfl rfl rfl rfl (fun j hj => ?_) ?_ ⟨?_, ?_, fun _ => hnone, ?_⟩
      · exact ⟨Function.update_of_ne hj _ _, Function.update_of_ne hj _ _, rfl⟩
      · simp [Commands.set, Commands.setSlot, hslot, Slots.Pc.holds]
      · rw [command_set]
        exact ⟨Or.inr (slot_setSlot _), hfits.2⟩
      · rw [command_set]
        exact nofun
      · exact hgiven.trans (by simp [Commands.set])
    · rw [if_neg hmax, if_neg nofun]
      refine h.move rfl rfl rfl rfl rest_setSlot ?_ ⟨?_, ?_, fun _ => hnone, ?_⟩
      · simp [hslot, Slots.Pc.holds]
      · rw [show (s.setSlot k (.swapping s.inFlight)).command k = .calling from hcall, slot_setSlot]
        exact ⟨Or.inr (Or.inl ⟨_, not_le.mp hmax, rfl⟩), hfits.2⟩
      · rw [show (s.setSlot k (.swapping s.inFlight)).command k = .calling from hcall]
        exact nofun
      · exact hgiven.trans (by simp)
  -- In `give_back`: the slot is counted, so the loop goes on.
  case h_3 hslot | h_4 hslot =>
    have hholds : (s.slot k).holds := by simp [hslot, Slots.Pc.holds]
    rw [if_pos (h.inFlight_pos hholds)] at hpc
    obtain rfl := Option.some.inj hpc
    obtain ⟨hans, hkept⟩ := hfits.givingBack (by simp [hslot])
    rw [if_neg nofun]
    refine h.move rfl rfl rfl rfl rest_setSlot ?_ ⟨?_, fun _ => hok.pushed hans,
      fun hno => absurd hans hno, ?_⟩
    · simp [hslot, Slots.Pc.holds]
    · rw [slot_setSlot]
      exact hfits.move hans (Or.inr ⟨Or.inr (Or.inl ⟨_, rfl⟩), hkept⟩)
    · rw [hslot] at hgiven
      exact hgiven.trans (by simp)

theorem Inv.take (h : s.Inv) {n : ℕ} (hslot : s.slot k = .swapping n) (hcount : s.inFlight = n) :
    ({ s.setSlot k .holding with inFlight := min (n + 1) usizeMax } : Commands α).Inv := by
  have hok := h.ok k
  have hfits := hok.fits
  have hgiven := hok.given
  rw [hslot] at hfits hgiven
  obtain ⟨hcall, hn, hkept⟩ := hfits.swapping
  have hnone := hok.unpushed (by simp [hcall, Command.Answered])
  have hk : k ∉ s.holders := by simp [holders, hslot, Slots.Pc.holds]
  have hholders : (s.setSlot k .holding).holders = insert k s.holders := by
    ext j
    by_cases hj : j = k
    · subst hj
      simp [holders, Slots.Pc.holds]
    · simp [holders, (rest_setSlot (s := s) (p := .holding) j hj).2.1, hj]
  have hmin : min (n + 1) usizeMax = n + 1 := by
    refine min_eq_left ?_
    unfold maxInFlightCommands at hn
    unfold usizeMax
    omega
  rw [hmin]
  refine ⟨h.gate, h.kept, ?_, ?_, hn, h.logged, fun j => ?_⟩
  · exact hholders ▸ h.finite.insert k
  · change n + 1 = (s.setSlot k .holding).holders.ncard
    rw [hholders, Set.ncard_insert_of_notMem hk h.finite, ← h.count, hcount]
  · by_cases hj : j = k
    · subst hj
      have hcall' : (s.setSlot j .holding).command j = .calling := hcall
      refine ⟨?_, ?_, fun _ => hnone, ?_⟩
      · change Command.Fits _ _ _ ((s.setSlot j .holding).slot j) ((s.setSlot j .holding).command j)
        rw [hcall', slot_setSlot]
        exact ⟨Or.inr (Or.inr rfl), hkept⟩
      · change ((s.setSlot j .holding).command j).Answered → _
        rw [hcall']
        exact nofun
      · exact hgiven.trans (by simp)
    · obtain ⟨hcommand, hs, hinput⟩ := rest_setSlot (s := s) (p := .holding) j hj
      exact (h.ok j).congr hcommand hs hinput Iff.rfl rfl rfl

theorem Inv.giveBack (h : s.Inv) {n : ℕ} (hslot : s.slot k = .swappingBack n)
    (hcount : s.inFlight = n) :
    ({ s.setSlot k .done with inFlight := n - 1, given := s.given ++ [k] } : Commands α).Inv := by
  have hok := h.ok k
  have hfits := hok.fits
  have hgiven := hok.given
  rw [hslot] at hfits hgiven
  obtain ⟨hans, hkept⟩ := hfits.givingBack (Or.inr ⟨n, rfl⟩)
  have hk : k ∈ s.holders := by simp [holders, hslot, Slots.Pc.holds]
  have hholders : (s.setSlot k .done).holders = s.holders \ {k} := by
    ext j
    by_cases hj : j = k
    · subst hj
      simp [holders, Slots.Pc.holds]
    · simp [holders, (rest_setSlot (s := s) (p := .done) j hj).2.1, hj]
  refine ⟨h.gate, h.kept, ?_, ?_, ?_, h.logged, fun j => ?_⟩
  · exact hholders ▸ h.finite.sdiff
  · change n - 1 = (s.setSlot k .done).holders.ncard
    rw [hholders, Set.ncard_sdiff_singleton_of_mem hk, ← h.count, hcount]
  · exact (Nat.sub_le n 1).trans (hcount ▸ h.bound)
  · by_cases hj : j = k
    · subst hj
      refine ⟨?_, fun _ => hok.pushed hans, fun hno => absurd hans hno, ?_⟩
      · change Command.Fits _ _ _ ((s.setSlot j .done).slot j) (s.command j)
        rw [slot_setSlot]
        exact hfits.move hans (Or.inr ⟨Or.inr (Or.inr rfl), hkept⟩)
      · rw [if_neg nofun] at hgiven
        simp [hgiven]
    · obtain ⟨hcommand, hs, hinput⟩ := rest_setSlot (s := s) (p := .done) j hj
      exact (h.ok j).congr hcommand hs hinput Iff.rfl rfl (by simp [Ne.symm hj])

theorem Inv.swap (h : s.Inv) (hs : s.swap k = some s') : s'.Inv := by
  obtain ⟨⟨n, pc⟩, hpc, rfl⟩ := Option.map_eq_some_iff.mp hs
  unfold Slots.Pc.swap at hpc
  split at hpc
  · split_ifs at hpc with hm
    obtain ⟨rfl, rfl⟩ := Prod.mk.inj (Option.some.inj hpc)
    exact h.take (by rwa [← hm]) rfl
  · split_ifs at hpc with hm
    obtain ⟨rfl, rfl⟩ := Prod.mk.inj (Option.some.inj hpc)
    exact h.giveBack (by rwa [← hm]) rfl
  · cases hpc

theorem Inv.setGate (h : s.Inv) {gate : Gate α} {drops : List ℕ} {pushed : List (Pushed α)}
    (hinv : gate.Inv) (hp : (gate.kept ++ drops).Perm s.gate.kept)
    (hlog : gate.log = pushed.flatMap Pushed.took)
    (hpushed : ∀ j, pushed.filter (·.permit = some j) = s.pushes j) :
    ({ s with pushed := pushed }.setGate gate drops).Inv := by
  obtain ⟨hkept, -, hdisj⟩ := List.nodup_append.mp (hp.nodup_iff.mpr h.kept)
  have hdropped : ∀ j ∈ drops, (s.command j).Answered ∧ s.slot j = .holding ∧ j ∉ gate.kept := by
    intro j hj
    obtain ⟨hans, hslot⟩ := (h.ok j).fits.of_kept (hp.subset (List.mem_append_right _ hj))
    exact ⟨hans, hslot, fun hk => hdisj j hk j hj rfl⟩
  have hholders : ({ s with pushed := pushed }.setGate gate drops).holders = s.holders := by
    refine holders_eq fun j => ?_
    by_cases hj : j ∈ drops
    · simp [Commands.setGate, hj, (hdropped j hj).2.1, Slots.Pc.holds]
    · simp [Commands.setGate, hj]
  refine ⟨hinv, hkept, hholders ▸ h.finite, h.count.trans (congrArg Set.ncard hholders.symm),
    h.bound, hlog, fun j => ?_⟩
  have hok := h.ok j
  by_cases hj : j ∈ drops
  · obtain ⟨hans, hslot, hout⟩ := hdropped j hj
    have hslot' : ({ s with pushed := pushed }.setGate gate drops).slot j = .givingBack := if_pos hj
    refine ⟨?_, fun _ => ?_, fun hno => absurd hans hno, ?_⟩
    · rw [hslot']
      exact hok.fits.move hans (Or.inr ⟨Or.inl rfl, hout⟩)
    · have hone := hok.pushed hans
      rw [← hpushed j] at hone
      exact hone
    · have hgiven := hok.given
      rw [hslot] at hgiven
      exact hgiven.trans (by simp [hslot'])
  · refine hok.congr rfl (if_neg hj) rfl ⟨fun hk => hp.subset (List.mem_append_left _ hk),
      fun hk => ?_⟩
      (hpushed j) rfl
    exact (List.mem_append.mp (hp.symm.subset hk)).resolve_right hj

theorem Inv.push (h : s.Inv) {inDelivery : Bool} {event : Event α}
    (hs : s.push len inDelivery event none = some s') : s'.Inv := by
  obtain ⟨⟨gate, drops⟩, hx, rfl⟩ := Option.map_eq_some_iff.mp hs
  have hstep : s.gate.stepDrops len (.push inDelivery event none) = some (gate, drops) := hx
  refine h.setGate (h.gate.step hstep) (Gate.kept_perm hstep h.gate rfl) ?_ fun j => ?_
  · rw [List.flatMap_append, ← h.logged]
    simpa using Gate.log_push hx
  · simp [pushes]

theorem Inv.answered (h : s.Inv) {gate : Gate α} {drops : List ℕ} {c : Command} {p : Pushed α}
    (hinv : gate.Inv) (hnodup : gate.kept.Nodup) (hlog : gate.log = s.gate.log ++ p.took)
    (hslot : s.slot k = .holding) (hopen : ¬ (s.command k).Answered) (hc : c.Answered)
    (hfits : ∀ kept pc, Out kept pc → c.Fits k (s.input k).id kept pc)
    (hp : OneReply k (s.input k).id [p])
    (hk : drops = [] ∧ k ∈ gate.kept ∨ drops = [k] ∧ k ∉ gate.kept)
    (hrest : ∀ j ≠ k, j ∈ gate.kept ↔ j ∈ s.gate.kept) :
    (({ s with pushed := s.pushed ++ [p] }.setGate gate drops).set k c).Inv := by
  have hpermit : p.permit = some k := by
    obtain ⟨result, result', opened, hp⟩ := hp
    rw [(List.cons.inj hp).1]
  have hdrops : ∀ j ≠ k, j ∉ drops := by
    rintro j hj hmem
    rcases hk with ⟨rfl, -⟩ | ⟨rfl, -⟩
    · cases hmem
    · exact hj (List.mem_singleton.mp hmem)
  have hout : Out (k ∈ gate.kept) (if k ∈ drops then .givingBack else s.slot k) := by
    rcases hk with ⟨rfl, hk⟩ | ⟨rfl, hk⟩
    · exact Or.inl ⟨hslot, hk⟩
    · exact Or.inr ⟨Or.inl (if_pos (List.mem_singleton_self k)), hk⟩
  have hholds : (if k ∈ drops then Slots.Pc.givingBack else s.slot k).holds = (s.slot k).holds ∧
      (if k ∈ drops then Slots.Pc.givingBack else s.slot k) ≠ .done := by
    split_ifs <;> simp [hslot, Slots.Pc.holds]
  have hholders : (({ s with pushed := s.pushed ++ [p] }.setGate gate drops).set k c).holders =
    s.holders := by
    refine holders_eq fun j => ?_
    by_cases hj : j = k
    · exact hj ▸ hholds.1
    · simp [Commands.set, Commands.setGate, hdrops j hj]
  refine ⟨hinv, hnodup, hholders ▸ h.finite, h.count.trans (congrArg Set.ncard hholders.symm),
    h.bound, ?_, fun j => ?_⟩
  · change gate.log = (s.pushed ++ [p]).flatMap Pushed.took
    rw [hlog, h.logged]
    simp
  · by_cases hj : j = k
    · subst hj
      have hgiven := (h.ok j).given
      rw [hslot, if_neg nofun] at hgiven
      refine ⟨?_, fun _ => ?_, ?_, hgiven.trans (if_neg hholds.2).symm⟩
      · rw [command_set]
        exact hfits _ _ hout
      · have hpushes :
            (({ s with pushed := s.pushed ++ [p] }.setGate gate drops).set j c).pushes j = [p] := by
          have hnone := (h.ok j).unpushed hopen
          simp only [pushes, Commands.set, Commands.setGate, List.filter_append] at hnone ⊢
          simp [hnone, hpermit]
        rw [hpushes]
        exact hp
      · rw [command_set]
        exact fun hno => absurd hc hno
    · refine (h.ok j).congr (Function.update_of_ne hj _ _) (if_neg (hdrops j hj)) rfl
        (hrest j hj) ?_ rfl
      simp [pushes, Commands.set, Commands.setGate, hpermit, Ne.symm hj]

theorem Inv.answer (h : s.Inv) (hlen : Short len) {c : Command}
    {result : Except ErrorInfo (Option UInt64)} (hslot : s.slot k = .holding)
    (hkept : k ∉ s.gate.kept) (hopen : ¬ (s.command k).Answered) (hc : c.Answered)
    (hfits : ∀ kept pc, Out kept pc → c.Fits k (s.input k).id kept pc)
    (hs : s.push len false (.reply (s.input k).id result) (some k) = some s') :
    (s'.set k c).Inv := by
  obtain ⟨⟨gate, drops⟩, hx, rfl⟩ := Option.map_eq_some_iff.mp hs
  have hstep : s.gate.stepDrops len (.push false (.reply (s.input k).id result) (some k)) =
      some (gate, drops) := hx
  have hperm : (gate.kept ++ drops).Perm (s.gate.kept ++ [k]) := Gate.kept_step hstep h.gate
  have hnodup : (s.gate.kept ++ [k]).Nodup := by
    refine List.nodup_append.mpr ⟨h.kept, List.nodup_singleton k, ?_⟩
    rintro j hj i hi rfl
    exact hkept (List.mem_singleton.mp hi ▸ hj)
  obtain ⟨result', bytes, hfit⟩ := fit_reply hlen (s.input k).id result
  refine h.answered (h.gate.step hstep) ?_ (Gate.log_push hx) hslot hopen hc hfits ?_ ?_ ?_
  · exact (List.nodup_append.mp (hperm.nodup_iff.mpr hnodup)).1
  · rcases Gate.push_cases hx with ⟨rfl, -, hwhy⟩ | ⟨-, hopened, event', bytes', hfit', -, rfl⟩
    · have hclosed : s.gate.state ≠ .opened := hwhy.resolve_left (by simp [hfit])
      exact ⟨result, result', false, by simp [hclosed]⟩
    · obtain ⟨rfl, -⟩ := Prod.mk.inj (Option.some.inj (hfit.symm.trans hfit'))
      exact ⟨result, result', true, by simp [hopened]⟩
  · rcases Gate.push_cases hx with ⟨rfl, rfl, -⟩ | ⟨rfl, -⟩
    · exact Or.inr ⟨rfl, hkept⟩
    · have hmem := hperm.symm.subset (List.mem_append_right _ (List.mem_singleton_self k))
      exact Or.inl ⟨rfl, by simpa using hmem⟩
  · intro j hj
    rcases Gate.push_cases hx with ⟨rfl, -⟩ | ⟨rfl, -⟩
    · exact Iff.rfl
    · have hmem := hperm.mem_iff (a := j)
      simpa [hj] using hmem

theorem Inv.reply (h : s.Inv) (hlen : Short len) {c : Command} {guard : ReplyGuard}
    {result : Except ErrorInfo (Option UInt64)} (hrun : s.command k = .running guard)
    (hc : c.Answered) (hfits : ∀ kept pc, Out kept pc → c.Fits k (s.input k).id kept pc)
    (hs : s.reply len guard result = some s') : (s'.set k c).Inv := by
  have hfit := (h.ok k).fits
  rw [hrun] at hfit
  obtain ⟨rfl, hslot, hkept⟩ := hfit
  exact h.answer hlen hslot hkept (by simp [hrun, Command.Answered]) hc hfits hs

theorem Inv.spawn (h : s.Inv) (hlen : Short len) (hs : s.spawn len k = some s') : s'.Inv := by
  have hok := h.ok k
  unfold Commands.spawn at hs
  split at hs
  · rename_i id hcall hslot hinput
    obtain rfl := Option.some.inj hs
    have hfits := hok.fits
    rw [hcall] at hfits
    refine h.move rfl rfl rfl rfl rest_set rfl ⟨?_, ?_,
      fun _ => hok.unpushed (by simp [hcall, Command.Answered]), hok.given⟩
    · rw [command_set]
      exact ⟨by simp [Commands.set, hinput, Input.id], hslot, hfits.2⟩
    · rw [command_set]
      exact nofun
  · rename_i id e hcall hslot hinput
    obtain ⟨t, ht, rfl⟩ := Option.map_eq_some_iff.mp hs
    have hfits := hok.fits
    rw [hcall] at hfits
    have hid : (s.input k).id = id.getD 0 := by rw [hinput]; rfl
    exact h.answer hlen hslot hfits.2 (by simp [hcall, Command.Answered]) trivial
      (fun _ _ hout => hout)
      (by rw [hid]; exact ht)
  · cases hs

theorem Inv.send (h : s.Inv) (hlen : Short len) {result : Except ErrorInfo (Option UInt64)}
    (hs : s.send len k result = some s') : s'.Inv := by
  unfold Commands.send at hs
  split at hs
  · rename_i guard hrun
    obtain ⟨t, ht, rfl⟩ := Option.map_eq_some_iff.mp hs
    exact h.reply hlen hrun trivial (fun _ _ hout => ⟨rfl, hout⟩) ht
  · cases hs

theorem Inv.dropGuard (h : s.Inv) (hlen : Short len) {stopping : Bool}
    (hs : s.dropGuard len k stopping = some s') : s'.Inv := by
  unfold Commands.dropGuard at hs
  split at hs
  · rename_i guard hrun
    obtain ⟨t, ht, rfl⟩ := Option.map_eq_some_iff.mp hs
    exact h.reply hlen hrun trivial (fun _ _ hout => hout) ht
  · -- Nothing is left in a guard that was sent.
    rename_i guard hsent
    obtain ⟨t, ht, rfl⟩ := Option.map_eq_some_iff.mp hs
    have hok := h.ok k
    have hfits := hok.fits
    rw [hsent] at hfits
    obtain ⟨hnone, hout⟩ := hfits
    rw [Commands.reply, hnone] at ht
    obtain rfl := Option.some.inj ht
    have hone := hok.pushed (by simp [hsent, Command.Answered])
    refine h.move rfl rfl rfl rfl rest_set rfl ⟨?_, fun _ => hone, ?_, hok.given⟩
    · rw [command_set]
      exact hout
    · rw [command_set]
      exact fun hno => absurd trivial hno
  · cases hs

theorem Inv.call (h : s.Inv) {input : Input} (hs : s.call k input = some s') : s'.Inv := by
  unfold Commands.call at hs
  split at hs
  · rename_i hidle
    obtain rfl := Option.some.inj hs
    have hok := h.ok k
    have hfits := hok.fits
    rw [hidle] at hfits
    refine h.move rfl rfl rfl rfl (fun j hj => ?_) rfl ⟨?_, ?_, fun _ => ?_, hok.given⟩
    · exact ⟨Function.update_of_ne hj _ _, rfl, Function.update_of_ne hj _ _⟩
    · change Command.Fits _ _ _ _ ((s.set k _).command k)
      rw [command_set]
      split_ifs
      · exact ⟨Or.inl hfits.1, hfits.2⟩
      · exact ⟨Or.inl hfits.1, hfits.2⟩
    · change ((s.set k _).command k).Answered → _
      rw [command_set]
      split_ifs <;> exact nofun
    · exact hok.unpushed (by simp [hidle, Command.Answered])
  · cases hs

theorem Inv.step (h : s.Inv) (hlen : Short len) {a : Act α} (hs : s.step len a = some s') :
    s'.Inv := by
  cases a with
  | stop =>
    obtain rfl := Option.some.inj hs
    exact ⟨h.gate, h.kept, h.finite, h.count, h.bound, h.logged,
      fun j => (h.ok j).congr rfl rfl rfl Iff.rfl rfl rfl⟩
  | call k input => exact h.call hs
  | read k => exact h.read hs
  | swap k => exact h.swap hs
  | spawn k => exact h.spawn hlen hs
  | send k result => exact h.send hlen hs
  | dropGuard k stopping => exact h.dropGuard hlen hs
  | push inDelivery event => exact h.push hs
  | close finish =>
    obtain rfl := Option.some.inj hs
    have hstep : s.gate.stepDrops len (.close finish) = some (s.gate.close finish) := rfl
    exact h.setGate (h.gate.step hstep) (Gate.kept_perm hstep h.gate rfl)
      ((Gate.log_close _ _).trans h.logged)
      fun _ => rfl
  | take =>
    obtain ⟨gate, hx, rfl⟩ := Option.map_eq_some_iff.mp hs
    have hstep : s.gate.stepDrops len .take = some (gate, []) := by simp [Gate.stepDrops, hx]
    exact h.setGate (h.gate.step hstep) (Gate.kept_perm hstep h.gate rfl)
      ((Gate.log_take hx).trans h.logged)
      fun _ => rfl
  | deliver =>
    obtain ⟨⟨gate, drops⟩, hx, rfl⟩ := Option.map_eq_some_iff.mp hs
    have hstep : s.gate.stepDrops len .deliver = some (gate, drops) := hx
    exact h.setGate (h.gate.step hstep) (Gate.kept_perm hstep h.gate rfl)
      ((Gate.log_deliver hx).trans h.logged)
      fun _ => rfl

theorem Inv.of_exec (hlen : Short len) {as : List (Act α)}
    (h : exec (Commands.step len) Commands.new as = some s) : s.Inv :=
  exec_invariant (fun _ _ _ hI hs => hI.step hlen hs) new h

end Commands

end Sukkula.Hub
