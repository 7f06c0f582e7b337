import Mathlib.Data.List.Nodup
import Sukkula.Shell.Bridge

/-! # What the bridge delivers

The count is what is posted and what is about to be, wherever the GUI thread is.
Each post is in one place: emitted, removed, in the hand of `deliver` or in the
queue; those not removed are in the order of their numbers, so what the engine
said before a `stop` is emitted once and in order, or removed by it. After a
`stop` of an engine nothing is left to emit. Without an engine `stop` returns at
once, and what a failed `start` has posted is emitted after it.
-/

namespace Sukkula.Shell.Bridge

open Transition Str

variable {b b' : Bridge} {a : Act}

/-- 1 if the call is counted and not yet posted. -/
def inFlight : Callback → ℕ
  | .counted _ => 1
  | _ => 0

/-- What each place of the GUI thread means for the engine and for the count. -/
def Fits (b : Bridge) : Gui → Prop
  | .idle | .emitting _ => b.running = b.engine ∧ b.undelivered = b.posted.length + inFlight b.call
  | .delivering _ => b.running = b.engine ∧ b.undelivered = b.posted.length + inFlight b.call + 1
  | .refusing => b.engine = false ∧ b.running = false ∧ b.undelivered + 1 = b.posted.length
  | .starting | .stopping | .joining =>
    b.engine = false ∧ b.running = true ∧ b.undelivered = b.posted.length + inFlight b.call
  | .removing => b.engine = false ∧ b.running = false ∧ b.undelivered = b.posted.length
  | .resetting => b.engine = false ∧ b.running = false ∧ b.posted = []

structure Inv (b : Bridge) : Prop where
  fits : Fits b b.gui
  call : b.running = false → b.call = .none
  -- While there is an engine the flag is up from when `stop` raises it.
  flag : b.running = true → (b.stopping = true ↔ b.gui = .joining)
  bounded : b.running = true → b.undelivered ≤ max maxUndelivered b.base

theorem inv_new : Inv {} := ⟨⟨rfl, rfl⟩, fun _ => rfl, nofun, nofun⟩

theorem Inv.running_of_call (h : Inv b) (hcall : b.call ≠ .none) : b.running = true := by
  by_contra hrun
  exact hcall (h.call (by simpa using hrun))

theorem Inv.flag_of_ne (h : Inv b) {gui : Gui} (hgui : b.gui ≠ .joining) (hne : gui ≠ .joining) :
    b.running = true → (b.stopping = true ↔ gui = .joining) := by
  intro hrun
  rw [h.flag hrun]
  exact iff_of_false hgui hne

/-- A step of a call moves one from the call to the queue, and the count with it. -/
theorem Inv.of_call (h : Inv b) (hrun : b.running = true) (hgui : b'.gui = b.gui)
    (hengine : b'.engine = b.engine) (hrunning : b'.running = b.running)
    (hstopping : b'.stopping = b.stopping) (hbase : b'.base = b.base)
    (hcount : b'.undelivered + b.posted.length + inFlight b.call =
      b.undelivered + b'.posted.length + inFlight b'.call)
    (hroom : b'.undelivered ≤ max maxUndelivered b.base) : Inv b' := by
  have hfits : Fits b' b.gui := by
    have hfits := h.fits
    cases hg : b.gui with
    | idle | emitting p | delivering p =>
      rw [hg] at hfits
      simp only [Fits, hengine, hrunning] at hfits ⊢
      exact ⟨hfits.1, by omega⟩
    | starting | stopping | joining =>
      rw [hg] at hfits
      simp only [Fits, hengine, hrunning] at hfits ⊢
      exact ⟨hfits.1, hfits.2.1, by omega⟩
    -- there is no engine here
    | refusing | removing | resetting =>
      rw [hg] at hfits
      rw [hfits.2.1] at hrun
      cases hrun
  constructor
  · rw [hgui]
    exact hfits
  · rw [hrunning, hrun]
    exact nofun
  · rw [hrunning, hgui, hstopping]
    exact h.flag
  · rw [hbase]
    exact fun _ => hroom

theorem Inv.step (h : Inv b) (hm : Moves b a b') : Inv b' := by
  have hfits := h.fits
  cases hm with
  | again hgui hengine refusal => exact ⟨h.fits, h.call, h.flag, h.bounded⟩
  | refuse hgui hengine refusal =>
    rw [hgui] at hfits
    obtain ⟨hrunning, hcount⟩ := hfits
    rw [hengine] at hrunning
    have hidle := h.call hrunning
    rw [hidle] at hcount
    exact ⟨⟨hengine, hrunning, by simpa [push, inFlight] using hcount⟩,
      h.call, by simp [push, hrunning], h.bounded⟩
  | start hgui hengine =>
    rw [hgui] at hfits
    exact ⟨⟨hengine, rfl, hfits.2⟩, nofun, by simp, fun _ => Nat.le_max_right _ _⟩
  | command hgui => exact h
  | stop hgui hengine =>
    rw [hgui] at hfits
    obtain ⟨hrunning, hcount⟩ := hfits
    rw [hengine] at hrunning
    exact ⟨⟨rfl, hrunning, hcount⟩, h.call, h.flag_of_ne (by simp [hgui]) (by simp), h.bounded⟩
  | stopNull hgui hengine => exact ⟨h.fits, h.call, h.flag, h.bounded⟩
  | deliver hgui hposted =>
    rw [hgui] at hfits
    obtain ⟨hrunning, hcount⟩ := hfits
    rw [hposted, List.length_cons] at hcount
    exact ⟨⟨hrunning, by simp only; omega⟩, h.call, h.flag_of_ne (by simp [hgui]) (by simp),
      h.bounded⟩
  | refused hgui =>
    rw [hgui] at hfits
    obtain ⟨hengine, hrunning, hcount⟩ := hfits
    refine ⟨⟨hrunning.trans hengine.symm, ?_⟩, h.call, by simp [hrunning], by simp [hrunning]⟩
    simpa [h.call hrunning, inFlight] using hcount
  | started hgui =>
    rw [hgui] at hfits
    exact ⟨⟨hfits.2.1, hfits.2.2⟩, h.call, h.flag_of_ne (by simp [hgui]) (by simp), h.bounded⟩
  | failed hgui hcall =>
    rw [hgui] at hfits
    exact ⟨⟨hfits.1.symm, hfits.2.2⟩, fun _ => hcall, nofun, nofun⟩
  | flag hgui =>
    rw [hgui] at hfits
    exact ⟨hfits, h.call, by simp, h.bounded⟩
  | joined hgui hcall =>
    rw [hgui] at hfits
    refine ⟨⟨hfits.1, rfl, ?_⟩, fun _ => hcall, nofun, nofun⟩
    simpa [hcall, inFlight] using hfits.2.2
  | remove hgui =>
    rw [hgui] at hfits
    exact ⟨⟨hfits.1, hfits.2.1, rfl⟩, h.call, by simp [hfits.2.1], h.bounded⟩
  | reset hgui =>
    rw [hgui] at hfits
    obtain ⟨hengine, hrunning, hposted⟩ := hfits
    refine ⟨⟨hrunning.trans hengine.symm, ?_⟩, h.call, by simp [hrunning], by simp [hrunning]⟩
    simp [hposted, h.call hrunning, inFlight]
  | discount hgui =>
    rw [hgui] at hfits
    obtain ⟨hrunning, hcount⟩ := hfits
    refine ⟨⟨hrunning, by simp only; omega⟩, h.call, h.flag_of_ne (by simp [hgui]) (by simp),
      fun hr => ?_⟩
    exact Nat.le_trans (Nat.sub_le _ _) (h.bounded hr)
  | emit hgui =>
    rw [hgui] at hfits
    exact ⟨hfits, h.call, h.flag_of_ne (by simp [hgui]) (by simp), h.bounded⟩
  | long hcall hrunning hlen =>
    exact h.of_call hrunning rfl rfl rfl rfl rfl (by simp [leave, hcall, inFlight])
      (h.bounded hrunning)
  | enter hcall hrunning hlen =>
    exact h.of_call hrunning rfl rfl rfl rfl rfl (by simp [hcall, inFlight]) (h.bounded hrunning)
  | wait hcall | wake hcall =>
    have hrunning := h.running_of_call (by simp [hcall])
    exact h.of_call hrunning rfl rfl rfl rfl rfl (by simp [hcall, inFlight]) (h.bounded hrunning)
  | giveUp hcall hstopping =>
    have hrunning := h.running_of_call (by simp [hcall])
    exact h.of_call hrunning rfl rfl rfl rfl rfl (by simp [leave, hcall, inFlight])
      (h.bounded hrunning)
  | count hcall hstopping hroom =>
    have hrunning := h.running_of_call (by simp [hcall])
    refine h.of_call hrunning rfl rfl rfl rfl rfl (by simp [hcall, inFlight]; omega) ?_
    exact Nat.le_trans hroom (Nat.le_max_left _ _)
  | post hcall =>
    have hrunning := h.running_of_call (by simp [hcall])
    refine h.of_call hrunning rfl rfl rfl rfl rfl ?_ (h.bounded hrunning)
    simp [push, leave, hcall, inFlight]
    omega

section Books

/-- What `deliver` was called with and has not emitted. -/
def hand : Gui → List Post
  | .delivering p | .emitting p => [p]
  | _ => []

/-- The posts that were not removed: emitted, in hand, and in the queue. -/
def line (b : Bridge) : List Post := b.emitted.map Emission.post ++ hand b.gui ++ b.posted

structure Books (b : Bridge) : Prop where
  order : ((line b).map Post.number).Pairwise (· < ·)
  once : ((line b ++ b.removed).map Post.number).Perm (List.range b.posts)
  said : ∀ r ∈ b.returned, ∀ n, r.number = some n → ⟨n, r.json⟩ ∈ line b ++ b.removed
  inTurn : (b.returned.filterMap Return.number).Pairwise (· < ·)
  -- What is not too long is posted, until `stop` begins.
  heard : ∀ r ∈ b.returned, r.stopping = false → len r.json ≤ maxEventBytes → r.number ≠ none

theorem books_new : Books {} :=
  ⟨List.Pairwise.nil, List.Perm.refl _, nofun, List.Pairwise.nil, nofun⟩

theorem Books.lt_of_mem (h : Books b) {p : Post} (hp : p ∈ line b ++ b.removed) :
    p.number < b.posts := by
  have := h.once.mem_iff.mp (List.mem_map_of_mem hp)
  exact List.mem_range.mp this

/-- Most steps leave every post in its place, or move it up in the line. -/
theorem Books.of_line (h : Books b) (hline : line b' = line b) (hremoved : b'.removed = b.removed)
    (hposts : b'.posts = b.posts) (hreturned : b'.returned = b.returned) : Books b' := by
  constructor
  · rw [hline]
    exact h.order
  · rw [hline, hremoved, hposts]
    exact h.once
  · rw [hline, hremoved, hreturned]
    exact h.said
  · rw [hreturned]
    exact h.inTurn
  · rw [hreturned]
    exact h.heard

theorem line_push (json : Str) : line (b.push json) = line b ++ [⟨b.posts, json⟩] :=
  (List.append_assoc _ _ _).symm

theorem Books.push (h : Books b) (json : Str) : Books (b.push json) := by
  constructor
  · rw [line_push, List.map_append, List.pairwise_append]
    refine ⟨h.order, List.pairwise_singleton _ _, ?_⟩
    intro n hn m hm
    obtain ⟨p, hp, rfl⟩ := List.mem_map.mp hn
    obtain rfl : m = b.posts := by simpa using hm
    exact h.lt_of_mem (List.mem_append_left _ hp)
  · rw [line_push]
    have hperm (p : Post) : (line b ++ [p] ++ b.removed).Perm (line b ++ b.removed ++ [p]) := by
      rw [List.append_assoc, List.append_assoc]
      exact List.perm_append_comm.append_left _
    refine ((hperm _).map Post.number).trans ?_
    rw [List.map_append]
    exact (h.once.append_right _).trans (by simp [Bridge.push, List.range_succ])
  · intro r hr n hn
    rw [line_push]
    have := h.said r hr n hn
    simp only [List.mem_append] at this ⊢
    exact this.imp_left Or.inl
  · exact h.inTurn
  · exact h.heard

theorem Books.leave (h : Books b) {json : Str} {number : Option ℕ}
    (hsaid : ∀ n, number = some n → ⟨n, json⟩ ∈ line b ++ b.removed)
    (hlast : ∀ n, number = some n → ∀ r ∈ b.returned, ∀ m, r.number = some m → m < n)
    (hheard : Gui.inStop b.gui = false → len json ≤ maxEventBytes → number ≠ none) :
    Books (b.leave json number) := by
  constructor
  · exact h.order
  · exact h.once
  · intro r hr n hn
    rcases List.mem_append.mp hr with hr | hr
    · exact h.said r hr n hn
    · obtain rfl := List.mem_singleton.mp hr
      exact hsaid n hn
  · change ((b.returned ++ [_]).filterMap Return.number).Pairwise _
    rw [List.filterMap_append, List.pairwise_append]
    refine ⟨h.inTurn, ?_, ?_⟩
    · cases number <;> simp
    · intro m hm n hn
      obtain ⟨r, hr, hrm⟩ := List.mem_filterMap.mp hm
      exact hlast n (by simpa using hn) r hr m hrm
  · intro r hr hstop hlen
    rcases List.mem_append.mp hr with hr | hr
    · exact h.heard r hr hstop hlen
    · obtain rfl := List.mem_singleton.mp hr
      exact hheard hstop hlen

theorem Books.remove (h : Books b) (hgui : b.gui = .removing) :
    Books { b with removed := b.removed ++ b.posted, posted := [], gui := .resetting } := by
  have hline : line b = b.emitted.map Emission.post ++ b.posted := by simp [line, hgui, hand]
  have hperm : (b.emitted.map Emission.post ++ (b.removed ++ b.posted)).Perm
      (line b ++ b.removed) := by
    rw [hline, List.append_assoc]
    exact List.perm_append_comm.append_left _
  constructor
  · have := h.order
    rw [hline, List.map_append] at this
    simpa [line, hand] using (List.pairwise_append.mp this).1
  · refine List.Perm.trans ?_ h.once
    simpa [line, hand] using hperm.map Post.number
  · intro r hr n hn
    simpa [line, hand] using hperm.mem_iff.mpr (h.said r hr n hn)
  · exact h.inTurn
  · exact h.heard

theorem Books.step (h : Books b) (hinv : Inv b) (hm : Moves b a b') : Books b' := by
  cases hm with
  | again hgui | command hgui | stopNull hgui | wait hcall | enter hcall | count hcall
    | wake hcall =>
    exact h.of_line rfl rfl rfl rfl
  | start hgui | stop hgui | refused hgui | started hgui | failed hgui | flag hgui
    | joined hgui | reset hgui
  | discount hgui => exact h.of_line (by simp [line, hgui, hand]) rfl rfl rfl
  | refuse hgui hengine refusal =>
    exact (h.push refusal.json).of_line (by simp [line, Bridge.push, hgui, hand]) rfl rfl rfl
  | deliver hgui hposted => exact h.of_line (by simp [line, hgui, hposted, hand]) rfl rfl rfl
  | emit hgui => exact h.of_line (by simp [line, hgui, hand]) rfl rfl rfl
  | remove hgui => exact h.remove hgui
  | long hcall hrunning hlen =>
    refine h.leave nofun nofun fun _ hshort => ?_
    omega
  | giveUp hcall hstopping =>
    refine h.leave nofun nofun fun hstop => ?_
    -- the flag is only up when `stop` is under way
    have hjoining := (hinv.flag (hinv.running_of_call (by simp [hcall]))).mp hstopping
    simp [hjoining, Gui.inStop] at hstop
  | @post json hcall =>
    refine (h.push json).leave ?_ ?_ ?_
    · rintro n ⟨⟩
      rw [line_push]
      simp
    · rintro n ⟨⟩ r hr m hm
      exact h.lt_of_mem (h.said r hr m hm)
    · exact nofun

end Books

section Waiting

/-- With the flag up no call begins to wait, or goes back to it. -/
theorem call_waiting (hstopping : b.stopping = true) (hm : Moves b a b') {json : Str}
    (hwait : b'.call = .waiting json) : b.call = .waiting json := by
  cases hm with
  | wait hcall hdown =>
    rw [hstopping] at hdown
    cases hdown
  | long hcall | giveUp hcall | post hcall | enter hcall | count hcall | wake hcall => cases hwait
  | _ => exact hwait

theorem joins (hgui : b.gui = .joining) (hstopping : b.stopping = true) :
    ∃ as, (∀ a ∈ as, a = .wake ∨ a = .lock ∨ a = .post) ∧
    ∃ b', exec step b (as ++ [.joined]) = some b' := by
  have hlock {c : Bridge} {json : Str} (hg : c.gui = .joining) (hs : c.stopping = true)
      (hcall : c.call = .entered json) : ∃ b', exec step c [.lock, .joined] = some b' := by
    simp [exec, step, Act.ofCall, stepCall, hcall, hs, leave, stepGui, hg]
  cases hcall : b.call with
  | none => exact ⟨[], nofun, by simp [exec, step, Act.ofCall, stepGui, hgui, hcall]⟩
  | entered json => exact ⟨[.lock], by simp, hlock hgui hstopping hcall⟩
  | waiting json =>
    refine ⟨[.wake, .lock], by simp, ?_⟩
    obtain ⟨b', hb'⟩ := hlock (c := { b with call := .entered json }) hgui hstopping rfl
    refine ⟨b', exec_cons_eq_some.mpr ⟨_, ?_, hb'⟩⟩
    simp [step, Act.ofCall, stepCall, hcall]
  | counted json =>
    refine ⟨[.post], by simp, ?_⟩
    simp [exec, step, Act.ofCall, stepCall, hcall, push, leave, stepGui, hgui]

end Waiting

def drain (posted : List Post) : List Act := posted.flatMap fun _ => [.deliver, .discount, .emit]

theorem exec_drain (hgui : b.gui = .idle) :
    ∃ b', exec step b (drain b.posted) = some b' ∧ b'.gui = .idle ∧ b'.posted = [] ∧
    b'.removed = b.removed ∧
      b'.emitted = b.emitted ++ b.posted.map (⟨·, b.stopped⟩) := by
  generalize hposted : b.posted = posted
  induction posted generalizing b with
  | nil => exact ⟨b, rfl, hgui, hposted, rfl, (List.append_nil _).symm⟩
  | cons p posted ih =>
    let c : Bridge :=
      { b with posted, undelivered := b.undelivered - 1, emitted := b.emitted ++ [⟨p, b.stopped⟩] }
    have hc : exec step b [.deliver, .discount, .emit] = some c := by
      simp [c, exec, step, Act.ofCall, stepGui, stepIdle, hgui, hposted]
    obtain ⟨b', hexec, hidle, hnil, hremoved, hemitted⟩ := ih (b := c) hgui rfl
    refine ⟨b', exec_append_of hc hexec, hidle, hnil, hremoved, ?_⟩
    simpa [c] using hemitted

theorem inv_books {as : List Act} (h : exec step {} as = some b) : Inv b ∧ Books b := by
  refine exec_invariant (I := fun b => Inv b ∧ Books b) ?_ ⟨inv_new, books_new⟩ h
  rintro s a s' ⟨hinv, hbooks⟩ hs
  have hm := moves_of_step hs
  exact ⟨hinv.step hm, hbooks.step hinv hm⟩

/-- What holds of the bridge wherever the two threads are. -/
structure Kept (b : Bridge) : Prop where
  count : b.gui = .idle → b.undelivered = b.posted.length + inFlight b.call
  -- `deliver` finds something to take off.
  found : ∀ p, b.gui = .delivering p → 0 < b.undelivered
  bounded : b.running = true → b.undelivered ≤ max maxUndelivered b.base
  -- An event whose call ended before `stop` began was posted, and is in one place.
  posted : ∀ r ∈ b.returned, r.stopping = false → len r.json ≤ maxEventBytes →
    ∃ n, r.number = some n ∧ (line b ++ b.removed).count ⟨n, r.json⟩ = 1
  once : ((line b ++ b.removed).map Post.number).Nodup
  order : ((line b).map Post.number).Pairwise (· < ·)
  inTurn : (b.returned.filterMap Return.number).Pairwise (· < ·)
  -- What is in the queue is emitted when Qt runs it.
  drains : b.gui = .idle → ∃ b', exec step b (drain b.posted) = some b' ∧ b'.removed = b.removed ∧
    b'.emitted.map Emission.post = line b
  flag : b.gui = .joining → b.stopping = true
  waits : b.stopping = true → ∀ a b', step b a = some b' →
    ∀ json, b'.call = .waiting json → b.call = .waiting json
  -- `stop` waits for a call that needs nothing of the GUI thread.
  joins : b.gui = .joining →
    ∃ as, (∀ a ∈ as, a = .wake ∨ a = .lock ∨ a = .post) ∧
    ∃ b', exec step b (as ++ [.joined]) = some b'

theorem Inv.flag_up (h : Inv b) (hgui : b.gui = .joining) : b.stopping = true := by
  have hfits := h.fits
  rw [hgui] at hfits
  exact (h.flag hfits.2.1).mpr hgui

theorem Books.nodup (h : Books b) : ((line b ++ b.removed).map Post.number).Nodup :=
  h.once.nodup_iff.mpr List.nodup_range

theorem bridge_kept {as : List Act} (h : exec step {} as = some b) : Kept b := by
  obtain ⟨hinv, hbooks⟩ := inv_books h
  have hfits := hinv.fits
  constructor
  · intro hgui
    rw [hgui] at hfits
    exact hfits.2
  · intro p hgui
    rw [hgui] at hfits
    exact hfits.2 ▸ Nat.succ_pos _
  · exact hinv.bounded
  · intro r hr hstop hlen
    obtain ⟨n, hn⟩ := Option.ne_none_iff_exists'.mp (hbooks.heard r hr hstop hlen)
    exact ⟨n, hn, List.count_eq_one_of_mem hbooks.nodup.of_map (hbooks.said r hr n hn)⟩
  · exact hbooks.nodup
  · exact hbooks.order
  · exact hbooks.inTurn
  · intro hgui
    obtain ⟨b', hexec, -, -, hremoved, hemitted⟩ := exec_drain hgui
    refine ⟨b', hexec, hremoved, ?_⟩
    simp [hemitted, line, hgui, hand, Function.comp_def]
  · exact hinv.flag_up
  · intro hstopping a b' hs json hwait
    exact call_waiting hstopping (moves_of_step hs) hwait
  · exact fun hgui => Bridge.joins hgui (hinv.flag_up hgui)

/-- An event is emitted, and the next is posted when `stop` has begun. -/
def stoppedRun : List Act :=
  [.start none, .callback ['a'], .started true, .lock, .post, .deliver, .callback ['b'],
    .discount, .lock, .emit, .stop, .post, .flag, .joined, .remove, .reset]

theorem kept_stopped : ∃ b, exec step {} stoppedRun = some b ∧ b.emitted = [⟨⟨0, ['a']⟩, false⟩] ∧
    b.removed = [⟨1, ['b']⟩] ∧ Kept b := by
  have h : exec step {} stoppedRun = some _ := rfl
  exact ⟨_, h, rfl, rfl, bridge_kept h⟩

section Quiet

/-- `stop` finds an engine, or nothing posted. -/
def Orderly (b : Bridge) (a : Act) : Prop := a = .stop → b.engine = true ∨ b.posted = []

structure Quiet (b : Bridge) : Prop where
  emitted : ∀ e ∈ b.emitted, e.late = false
  stopped : b.stopped = true → b.gui = .idle ∧ b.engine = false ∧ b.posted = []

theorem quiet_new : Quiet {} := ⟨nofun, nofun⟩

theorem Quiet.of_awake (h : Quiet b) (hemitted : b'.emitted = b.emitted)
    (hstopped : b'.stopped = false) : Quiet b' := by
  refine ⟨hemitted ▸ h.emitted, ?_⟩
  rw [hstopped]
  exact nofun

theorem Quiet.awake_of_gui (h : Quiet b) (hgui : b.gui ≠ .idle) : b.stopped = false := by
  by_contra hstopped
  exact hgui (h.stopped (by simpa using hstopped)).1

theorem Quiet.awake_of_running (h : Quiet b) (hinv : Inv b) (hrunning : b.running = true) :
    b.stopped = false := by
  by_contra hstopped
  obtain ⟨hgui, hengine, -⟩ := h.stopped (by simpa using hstopped)
  have hfits := hinv.fits
  rw [hgui] at hfits
  rw [hfits.1, hengine] at hrunning
  cases hrunning

theorem Quiet.step (h : Quiet b) (hinv : Inv b) (hord : Orderly b a) (hm : Moves b a b') :
    Quiet b' := by
  cases hm with
  | again | refuse | start => exact h.of_awake rfl rfl
  | command => exact h
  | stop hgui hengine =>
    have hfits := hinv.fits
    rw [hgui] at hfits
    exact h.of_awake rfl (h.awake_of_running hinv (hfits.1.trans hengine))
  | stopNull hgui hengine =>
    have hposted := (hord rfl).resolve_left (by simp [hengine])
    exact ⟨h.emitted, fun _ => ⟨hgui, hengine, hposted⟩⟩
  | deliver hgui hposted =>
    refine h.of_awake rfl ?_
    by_contra hstopped
    simp [(h.stopped (by simpa using hstopped)).2.2] at hposted
  | refused hgui | started hgui | failed hgui | flag hgui | joined hgui | remove hgui
    | discount hgui =>
    exact h.of_awake rfl (h.awake_of_gui (by simp [hgui]))
  | reset hgui =>
    have hfits := hinv.fits
    rw [hgui] at hfits
    exact ⟨h.emitted, fun _ => ⟨rfl, hfits.1, hfits.2.2⟩⟩
  | emit hgui =>
    have hawake := h.awake_of_gui (by simp [hgui])
    refine ⟨?_, by simp [hawake]⟩
    intro e he
    rcases List.mem_append.mp he with he | he
    · exact h.emitted e he
    · obtain rfl := List.mem_singleton.mp he
      exact hawake
  | long hcall hrunning | enter hcall hrunning =>
    exact h.of_awake rfl (h.awake_of_running hinv hrunning)
  | wait hcall | giveUp hcall | count hcall | wake hcall | post hcall =>
    exact h.of_awake rfl (h.awake_of_running hinv (hinv.running_of_call (by simp [hcall])))

theorem quiet_of_orderly {as : List Act} (hord : Along step Orderly {} as)
    (h : exec step {} as = some b) : Quiet b := by
  refine (exec_invariant_along (I := fun b => Inv b ∧ Quiet b) ?_ ⟨inv_new, quiet_new⟩ hord h).2
  rintro s a s' ⟨hinv, hquiet⟩ hG hs
  have hm := moves_of_step hs
  exact ⟨hinv.step hm, hquiet.step hinv hG hm⟩

theorem late_of_stop (hgui : b.gui = .idle) (hstop : ¬ Orderly b .stop) :
    ∃ b', exec step b [.stop, .deliver, .discount, .emit] = some b' ∧
    ∃ e ∈ b'.emitted, e.late = true := by
  obtain ⟨hengine, hposted⟩ : b.engine = false ∧ b.posted ≠ [] := by simpa [Orderly] using hstop
  obtain ⟨p, posted, hp⟩ := List.exists_cons_of_ne_nil hposted
  let c : Bridge :=
    { b with
      stopped := true, posted, undelivered := b.undelivered - 1,
      emitted := b.emitted ++ [⟨p, true⟩] }
  refine ⟨c, ?_, ⟨p, true⟩, by simp [c], rfl⟩
  simp [c, exec, step, Act.ofCall, stepGui, stepIdle, hgui, hengine, hp]

/-- If every `stop` is orderly no event is emitted between a `stop` and the next `start`, and any
that is not can be followed by one. -/
theorem quiet_iff_orderly {as : List Act} (h : exec step {} as = some b) :
    (Along step Orderly {} as → ∀ e ∈ b.emitted, e.late = false) ∧
      (b.gui = .idle → ¬ Orderly b .stop →
        ∃ b', exec step b [.stop, .deliver, .discount, .emit] = some b' ∧
        ∃ e ∈ b'.emitted, e.late = true) :=
  ⟨fun hord => (quiet_of_orderly hord h).emitted, late_of_stop⟩

theorem quiet_stopped : ∃ b, exec step {} stoppedRun = some b ∧ Along step Orderly {} stoppedRun ∧
    (∀ e ∈ b.emitted, e.late = false) ∧ b.stopped = true := by
  have hord : Along step Orderly {} stoppedRun := by
    iterate 10 apply Along.cons nofun rfl
    apply Along.cons (fun _ => Or.inl rfl) rfl
    iterate 5 apply Along.cons nofun rfl
    trivial
  have h : exec step {} stoppedRun = some _ := rfl
  exact ⟨_, h, hord, (quiet_iff_orderly h).1 hord, rfl⟩

/-- There is no home directory: `start` fails, `stop` is called and returns, and then the event
comes. -/
theorem late_after_refusal : ¬ ∀ as b, exec step {} as = some b →
    ∀ e ∈ b.emitted, e.late = false := by
  intro h
  have hlate := h [.start (some .noHome), .refused, .stop, .deliver, .discount, .emit] _ rfl
    ⟨⟨0, Refusal.noHome.json⟩, true⟩ (by simp)
  cases hlate

end Quiet

end Sukkula.Shell.Bridge
