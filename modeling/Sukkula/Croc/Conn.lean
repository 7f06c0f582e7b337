import Sukkula.Croc.Serve
import Sukkula.Library.Frames
import Sukkula.Library.Transition

/-! # The frames of a connection

A task of its own reads the stream of a connection, in whatever pieces it comes, and
hands the frames over through a channel that holds one. Those who wait for a frame
may stop waiting at any time. What they get is the stream's frames in their order,
and after the one error that ends it nothing more.
-/

namespace Sukkula.Croc

open Transition Frames
open LocalSend (ErrorInfo)

namespace Conn

def magic : Bytes := [0x63, 0x72, 0x6f, 0x63]

def network (what : String) : ErrorInfo := ⟨.network, what⟩

def toLeBytes32 (n : ℕ) : Bytes := (List.range 4).map fun i => UInt8.ofNat (n / 256 ^ i)

def frame (payload : Bytes) : Bytes := magic ++ toLeBytes32 payload.length ++ payload

/-- `send`: what is written, where the write comes to its end. -/
def send (payload : Bytes) : Except ErrorInfo Bytes :=
  if payload.length < 2 ^ 32 then .ok (frame payload)
  else .error (network "a frame too long to send")

/-- Where the task is: in `read_frame`'s two reads, handing a frame over, or gone. -/
inductive Task
  | header (got : Bytes)
  | body (len : ℕ) (got : Bytes)
  | handing (frame : Except ErrorInfo Bytes)
  | done
  deriving DecidableEq

/-- What `read_frame` makes of a whole header. -/
def afterHeader (max : ℕ) (header : Bytes) : Task :=
  if header.take 4 ≠ magic then .handing (.error (network "not a croc frame"))
  else if max < fromLeBytes (header.drop 4) then .handing (.error (network "a croc frame too long"))
  -- a read of nothing is done at once
  else if fromLeBytes (header.drop 4) = 0 then .handing (.ok [])
  else .body (fromLeBytes (header.drop 4)) []

/-- The task after a read of `data`, which has room for no more than is missing. -/
def Task.read (max : ℕ) (data : Bytes) : Task → Option Task
  | .header got =>
    if 0 < data.length ∧ got.length + data.length ≤ 8 then
      if got.length + data.length = 8 then some (afterHeader max (got ++ data))
      else some (.header (got ++ data))
    else none
  | .body len got =>
    if 0 < data.length ∧ got.length + data.length ≤ len then
      if got.length + data.length = len then some (.handing (.ok (got ++ data)))
      else some (.body len (got ++ data))
    else none
  | .handing _ | .done => none

/-- The task after the stream ended or failed. -/
def Task.endOfStream : Task → Option Task
  | .header _ | .body .. => some (.handing (.error (network "the croc connection ended")))
  | .handing _ | .done => none

inductive Call
  | recv | recvWithin | recvSkipping
  deriving DecidableEq, Repr

end Conn

open Conn in
structure Conn where
  task : Task
  -- What the channel holds. It is closed when the task is over.
  chan : Option (Except ErrorInfo Bytes)
  waiting : Option Call
  read : Bytes
  taken : List (Except ErrorInfo Bytes)
  -- What the calls returned; `ok none` is `recv_within` without a frame in time.
  answers : List (Except ErrorInfo (Option Bytes))

namespace Conn

def fromStream : Conn := ⟨.header [], none, none, [], [], []⟩

/-- What `frames.recv()` and `frames.poll_recv()` have: an item, the end of the channel, or nothing
yet. -/
inductive Poll
  | item (frame : Except ErrorInfo Bytes)
  | closed
  | pending

def poll (s : Conn) : Poll :=
  match s.chan with
  | some frame => .item frame
  | none => if s.task = .done then .closed else .pending

inductive Act
  | read (data : Bytes)
  | endOfStream
  -- The task puts what it holds into the channel.
  | hand
  | call (c : Call)
  -- The wait is over: there is an item, or the channel is closed.
  | ready
  | timeout
  | abandon
  | pollFrame
  deriving DecidableEq

/-- `ready` for one call. -/
def ready (s : Conn) (c : Call) : Option Conn :=
  match s.poll with
  | .pending => none
  | .closed => some { s with
      waiting := none
      answers := s.answers ++ [.error (network "the croc connection ended")] }
  | .item (.error e) => some { s with
      chan := none
      waiting := none
      taken := s.taken ++ [.error e]
      answers := s.answers ++ [.error e] }
  | .item (.ok bytes) =>
    -- `recv_skipping` goes on after a keepalive
    if c = .recvSkipping ∧ bytes = ping then
      some { s with
        chan := none
        taken := s.taken ++ [.ok bytes] }
    else
      some { s with
        chan := none
        waiting := none
        taken := s.taken ++ [.ok bytes]
        answers := s.answers ++ [.ok (some bytes)] }

def pollFrame (s : Conn) : Conn :=
  match s.poll with
  | .pending => s
  | .closed => { s with answers := s.answers ++ [.error (network "the croc connection ended")] }
  | .item f => { s with
      chan := none
      taken := s.taken ++ [f]
      answers := s.answers ++ [f.map some] }

def step (max : ℕ) (s : Conn) : Act → Option Conn
  | .read data => (s.task.read max data).map fun t => { s with task := t, read := s.read ++ data }
  | .endOfStream => s.task.endOfStream.map fun t => { s with task := t }
  | .hand =>
    match s.task, s.chan with
    | .handing f, none => some { s with
        chan := some f
        task := if f.isOk then .header [] else .done }
    | _, _ => none
  | .call c => if s.waiting = none then some { s with waiting := some c } else none
  | .ready => s.waiting.bind s.ready
  | .timeout =>
    match s.waiting, s.poll with
    | some .recvWithin, .pending => some { s with
        waiting := none
        answers := s.answers ++ [.ok none] }
    | some _, .pending => some { s with
        waiting := none
        answers := s.answers ++ [.error (network "the croc peer stopped responding")] }
    | _, _ => none
  | .abandon => if s.waiting = none then none else some { s with waiting := none }
  | .pollFrame => if s.waiting = none then some s.pollFrame else none

def Task.held : Task → List (Except ErrorInfo Bytes)
  | .handing f => [f]
  | .header _ | .body .. | .done => []

/-- What came out of the stream, in order: what was taken, what the channel holds, what the task
holds. -/
def items (s : Conn) : List (Except ErrorInfo Bytes) := s.taken ++ s.chan.toList ++ s.task.held

/-- The bytes between the stream and those who wait: of frames, and of a frame that is not whole. -/
def buffered (s : Conn) : ℕ :=
  ((s.chan.toList ++ s.task.held).map fun f => f.toOption.elim 0 List.length).sum +
    match s.task with
    | .header got => got.length
    | .body len _ => len
    | .handing _ | .done => 0

def frames (l : List (Except ErrorInfo Bytes)) : List Bytes := l.filterMap Except.toOption

def given (l : List (Except ErrorInfo (Option Bytes))) : List Bytes :=
  l.filterMap fun a => a.toOption.join

/-- The beginning of a frame of at most `max` bytes. -/
def Partial (max : ℕ) (rest : Bytes) : Prop :=
  rest.length < 8 ∨ ∃ len got, rest = magic ++ toLeBytes32 len ++ got ∧ got.length < len ∧
    len ≤ max ∧ len < 2 ^ 32

/-- What the stream has after its frames where it ends with `e`. -/
inductive Broken (max : ℕ) (rest : Bytes) : ErrorInfo → Prop
  | ended (h : Partial max rest) : Broken max rest (network "the croc connection ended")
  | noMagic (hlen : rest.length = 8) (h : rest.take 4 ≠ magic) :
  Broken max rest (network "not a croc frame")
  | tooLong {len : ℕ} (h : rest = magic ++ toLeBytes32 len) (hmax : max < len)
  (hlen : len < 2 ^ 32) :
    Broken max rest (network "a croc frame too long")

section Bytes

variable {max len : ℕ} {b p x y rest : Bytes}

theorem length_toLeBytes32 (n : ℕ) : (toLeBytes32 n).length = 4 := by simp [toLeBytes32]

theorem fromLeBytes_toLeBytes32 (h : len < 2 ^ 32) : fromLeBytes (toLeBytes32 len) = len := by
  rw [toLeBytes32, fromLeBytes_digits]
  exact Nat.mod_eq_of_lt h

theorem digits_fromLeBytes (b : Bytes) :
    ((List.range b.length).map fun i => UInt8.ofNat (fromLeBytes b / 256 ^ i)) = b := by
  induction b with
  | nil => rfl
  | cons x b ih =>
    have hx := x.toNat_lt
    have hcons : fromLeBytes (x :: b) = fromLeBytes b * 256 + x.toNat := rfl
    have hdiv : ∀ i, fromLeBytes (x :: b) / 256 ^ (i + 1) = fromLeBytes b / 256 ^ i := fun i => by
      rw [Nat.pow_succ', ← Nat.div_div_eq_div_mul, hcons]
      congr 1
      omega
    rw [List.length_cons, List.range_succ_eq_map, List.map_cons, List.map_map]
    congr 1
    · rw [Nat.pow_zero, Nat.div_one, hcons]
      apply UInt8.toNat_inj.mp
      rw [UInt8.toNat_ofNat']
      omega
    · refine (List.map_congr_left fun i _ => ?_).trans ih
      rw [Function.comp_apply, Nat.succ_eq_add_one, hdiv]

theorem toLeBytes32_fromLeBytes (h : b.length = 4) : toLeBytes32 (fromLeBytes b) = b := by
  rw [toLeBytes32, ← h]
  exact digits_fromLeBytes b

theorem fromLeBytes_lt (b : Bytes) : fromLeBytes b < 256 ^ b.length := by
  induction b with
  | nil => exact Nat.one_pos
  | cons x b ih =>
    have hx := x.toNat_lt
    have hcons : fromLeBytes (x :: b) = fromLeBytes b * 256 + x.toNat := rfl
    rw [hcons, List.length_cons, Nat.pow_succ]
    omega

/-- A header is the magic and a length, if it begins with the magic. -/
theorem header_eq (hlen : b.length = 8) (h : b.take 4 = magic) :
    b = magic ++ toLeBytes32 (fromLeBytes (b.drop 4)) ∧ fromLeBytes (b.drop 4) < 2 ^ 32 := by
  have hdrop : (b.drop 4).length = 4 := by rw [List.length_drop, hlen]
  refine ⟨?_, ?_⟩
  · rw [toLeBytes32_fromLeBytes hdrop, ← h, List.take_append_drop]
  · have := fromLeBytes_lt (b.drop 4)
    rw [hdrop] at this
    exact this

theorem length_inj {m n : ℕ} (hm : m < 2 ^ 32) (hn : n < 2 ^ 32)
    (h : magic ++ toLeBytes32 m ++ x = magic ++ toLeBytes32 n ++ y) : m = n ∧ x = y := by
  rw [List.append_assoc, List.append_assoc] at h
  obtain ⟨hlen, hxy⟩ := List.append_inj (List.append_cancel_left h)
    ((length_toLeBytes32 m).trans (length_toLeBytes32 n).symm)
  refine ⟨?_, hxy⟩
  rw [← fromLeBytes_toLeBytes32 hm, hlen, fromLeBytes_toLeBytes32 hn]

/-- The frames of payloads that can be sent are a code without separators. -/
theorem prefixCode_frame : PrefixCode (fun p : Bytes => p.length < 2 ^ 32) frame where
  ne_nil a _ := by simp [frame, magic]
  inj a b x y ha hb h := by
    rw [frame, frame, List.append_assoc, List.append_assoc (magic ++ toLeBytes32 b.length)] at h
    obtain ⟨hlen, hrest⟩ := length_inj ha hb h
    exact (List.append_inj hrest hlen).1

/-- A frame is not the beginning of one, nor what breaks a connection. -/
theorem not_frame_prefix_partial (h : Partial max rest) (hp : p.length < 2 ^ 32) :
    ¬ frame p <+: rest := by
  rintro ⟨z, rfl⟩
  rcases h with hlt | ⟨len, got, heq, hgot, -, hlen⟩
  · simp only [frame, List.length_append, length_toLeBytes32] at hlt
    have : magic.length = 4 := rfl
    omega
  · rw [frame, List.append_assoc] at heq
    obtain ⟨rfl, hgot'⟩ := length_inj hp hlen heq
    rw [← hgot', List.length_append] at hgot
    omega

theorem not_frame_prefix_broken {e : ErrorInfo} (h : Broken max rest e) (hp : p.length < 2 ^ 32)
    (hmax : p.length ≤ max) : ¬ frame p <+: rest := by
  cases h with
  | ended h => exact not_frame_prefix_partial h hp
  | noMagic hlen h =>
    rintro ⟨z, rfl⟩
    exact h rfl
  | @tooLong len h hlong hlen =>
    rintro ⟨z, hz⟩
    have heq : magic ++ toLeBytes32 p.length ++ (p ++ z) = magic ++ toLeBytes32 len ++ [] := by
      rw [List.append_nil, ← h, ← hz, frame]
      exact (List.append_assoc _ _ _).symm
    obtain ⟨rfl, -⟩ := length_inj hp hlen heq
    omega

end Bytes

/-- What the stream has after its frames, by where the task is and the error it ended with, if it
did. -/
inductive Tail (max : ℕ) : Bytes → Task → Option ErrorInfo → Prop
  | header {got : Bytes} (hlt : got.length < 8) : Tail max got (.header got) none
  | body {len : ℕ} {got : Bytes} (hlt : got.length < len) (hmax : len ≤ max) (hlen : len < 2 ^ 32) :
    Tail max (magic ++ toLeBytes32 len ++ got) (.body len got) none
  | whole (p : Bytes) : Tail max [] (.handing (.ok p)) none
  | failed {rest : Bytes} {e : ErrorInfo} (h : Broken max rest e) :
  Tail max rest (.handing (.error e)) (some e)
  | done {rest : Bytes} {e : ErrorInfo} (h : Broken max rest e) : Tail max rest .done (some e)

/-- The frames `fs` are those of what was read, which has `rest` after them, and `stop` is the error
it ended with. -/
structure Inv (max : ℕ) (fs : List Bytes) (stop : Option ErrorInfo) (rest : Bytes) (s : Conn) :
    Prop where
  items_eq : s.items = fs.map .ok ++ (stop.map .error).toList
  read_eq : s.read = fs.flatMap frame ++ rest
  le : ∀ p ∈ fs, p.length ≤ max ∧ p.length < 2 ^ 32
  tail : Tail max rest s.task stop
  given_eq : (given s.answers).filter (· ≠ ping) = (frames s.taken).filter (· ≠ ping)

section Steps

variable {max : ℕ} {fs : List Bytes} {stop : Option ErrorInfo} {rest data : Bytes}
  {s s' : Conn} {t t' : Task}

theorem afterHeader_cases (max : ℕ) {b : Bytes} (hlen : b.length = 8) :
    (∃ n, afterHeader max b = .body n [] ∧ 0 < n ∧ n ≤ max ∧ n < 2 ^ 32 ∧
      b = magic ++ toLeBytes32 n) ∨ (afterHeader max b = .handing (.ok []) ∧ b = frame []) ∨
      ∃ e, afterHeader max b = .handing (.error e) ∧ Broken max b e := by
  unfold afterHeader
  by_cases hmagic : b.take 4 = magic
  · obtain ⟨hb, hlt⟩ := header_eq hlen hmagic
    rw [if_neg (not_not.mpr hmagic)]
    by_cases hlong : max < fromLeBytes (b.drop 4)
    · rw [if_pos hlong]
      exact Or.inr (Or.inr ⟨_, rfl, .tooLong hb hlong hlt⟩)
    · rw [if_neg hlong]
      by_cases hzero : fromLeBytes (b.drop 4) = 0
      · rw [if_pos hzero]
        rw [hzero] at hb
        exact Or.inr (Or.inl ⟨rfl, hb⟩)
      · rw [if_neg hzero]
        exact Or.inl ⟨_, rfl, Nat.pos_of_ne_zero hzero, Nat.not_lt.mp hlong, hlt, hb⟩
  · rw [if_pos hmagic]
    exact Or.inr (Or.inr ⟨_, rfl, .noMagic hlen hmagic⟩)

/-- A read comes nearer to the end of a frame, completes it, or finds that the stream is broken. -/
theorem Tail.read (h : Tail max rest t stop) (hread : t.read max data = some t') :
    stop = none ∧ t.held = [] ∧
      ((t'.held = [] ∧ Tail max (rest ++ data) t' none) ∨
        (∃ p, t' = .handing (.ok p) ∧ rest ++ data = frame p ∧ p.length ≤ max ∧ p.length < 2 ^ 32) ∨
        ∃ e, t' = .handing (.error e) ∧ Broken max (rest ++ data) e) := by
  cases h with
  | header hlt =>
    rw [Task.read, Option.ite_none_right_eq_some] at hread
    obtain ⟨⟨hpos, hle⟩, hread⟩ := hread
    refine ⟨rfl, rfl, ?_⟩
    by_cases h8 : rest.length + data.length = 8
    · have h8' : (rest ++ data).length = 8 := by rw [List.length_append, h8]
      rw [if_pos h8, Option.some.injEq] at hread
      subst hread
      rcases afterHeader_cases max h8' with ⟨n, hn, hpos, hmax, hlt, hb⟩ | ⟨hn, hb⟩ | ⟨e, he, hb⟩
      · rw [hn, hb, ← List.append_nil (magic ++ toLeBytes32 n)]
        exact Or.inl ⟨rfl, .body hpos hmax hlt⟩
      · rw [hn]
        exact Or.inr (Or.inl ⟨[], rfl, hb, Nat.zero_le _, by decide⟩)
      · exact Or.inr (Or.inr ⟨e, he, hb⟩)
    · rw [if_neg h8, Option.some.injEq] at hread
      subst hread
      refine Or.inl ⟨rfl, .header ?_⟩
      rw [List.length_append]
      omega
  | @body len got hlt hmax hlen =>
    rw [Task.read, Option.ite_none_right_eq_some] at hread
    obtain ⟨⟨hpos, hle⟩, hread⟩ := hread
    refine ⟨rfl, rfl, ?_⟩
    by_cases hend : got.length + data.length = len
    · have hend' : (got ++ data).length = len := by rw [List.length_append, hend]
      rw [if_pos hend, Option.some.injEq] at hread
      subst hread
      refine Or.inr (Or.inl ⟨got ++ data, rfl, ?_, hend' ▸ hmax, hend' ▸ hlen⟩)
      rw [frame, hend', List.append_assoc]
    · rw [if_neg hend, Option.some.injEq] at hread
      subst hread
      rw [List.append_assoc]
      refine Or.inl ⟨rfl, .body ?_ hmax hlen⟩
      rw [List.length_append]
      omega
  | whole p => cases hread
  | failed h => cases hread
  | done h => cases hread

theorem Tail.endOfStream (h : Tail max rest t stop) (hend : t.endOfStream = some t') :
    stop = none ∧ t.held = [] ∧ t' = .handing (.error (network "the croc connection ended")) ∧
      Partial max rest := by
  cases h with
  | header hlt => exact ⟨rfl, rfl, (Option.some.inj hend).symm, Or.inl hlt⟩
  | body hlt hmax hlen =>
    exact ⟨rfl, rfl, (Option.some.inj hend).symm, Or.inr ⟨_, _, rfl, hlt, hmax, hlen⟩⟩
  | whole p => cases hend
  | failed h => cases hend
  | done h => cases hend

/-- What is left of the stream after its frames does not begin with a frame. -/
theorem Tail.not_frame_prefix (h : Tail max rest t stop) {p : Bytes} (hp : p.length < 2 ^ 32)
    (hmax : p.length ≤ max) : ¬ frame p <+: rest := by
  cases h with
  | header hlt =>
    have hpartial : Partial max rest := Or.inl hlt
    exact not_frame_prefix_partial hpartial hp
  | body hlt hmax hlen => exact not_frame_prefix_partial (Or.inr ⟨_, _, rfl, hlt, hmax, hlen⟩) hp
  | whole q =>
    rintro ⟨z, hz⟩
    exact prefixCode_frame.ne_nil p hp (List.append_eq_nil_iff.mp hz).1
  | failed h => exact not_frame_prefix_broken h hp hmax
  | done h => exact not_frame_prefix_broken h hp hmax

theorem Tail.broken {e : ErrorInfo} (h : Tail max rest t (some e)) : Broken max rest e := by
  cases h with
  | failed h => exact h
  | done h => exact h

theorem frames_append (a b : List (Except ErrorInfo Bytes)) :
    frames (a ++ b) = frames a ++ frames b :=
  List.filterMap_append

theorem given_append (a b : List (Except ErrorInfo (Option Bytes))) :
    given (a ++ b) = given a ++ given b :=
  List.filterMap_append

/-- The invariant is about the stream; those who wait only move what came out of it. -/
theorem Inv.consume (h : Inv max fs stop rest s) (hitems : s'.items = s.items)
    (hread : s'.read = s.read) (htask : s'.task = s.task)
    (hgiven : (given s'.answers).filter (· ≠ ping) = (frames s'.taken).filter (· ≠ ping)) :
    Inv max fs stop rest s' where
  items_eq := hitems.trans h.items_eq
  read_eq := hread.trans h.read_eq
  le := h.le
  tail := htask ▸ h.tail
  given_eq := hgiven

theorem poll_item {f : Except ErrorInfo Bytes} (h : s.poll = .item f) : s.chan = some f := by
  unfold poll at h
  split at h
  · cases h
    assumption
  · split at h <;> cases h

theorem items_take {f : Except ErrorInfo Bytes} (h : s.chan = some f) (w : Option Call)
    (l : List (Except ErrorInfo (Option Bytes))) :
    items { s with chan := none, waiting := w, taken := s.taken ++ [f], answers := l } =
    s.items := by
  simp [items, h]

theorem given_take (h : Inv max fs stop rest s) {f : Except ErrorInfo Bytes}
    {l : List (Except ErrorInfo (Option Bytes))}
    (hl : (given l).filter (· ≠ ping) = (frames [f]).filter (· ≠ ping)) :
    (given (s.answers ++ l)).filter (· ≠ ping) = (frames (s.taken ++ [f])).filter (· ≠ ping) := by
  rw [given_append, frames_append, List.filter_append, List.filter_append, h.given_eq, hl]

theorem Inv.ready (h : Inv max fs stop rest s) {c : Call} (hs : s.ready c = some s') :
    Inv max fs stop rest s' := by
  unfold Conn.ready at hs
  split at hs
  · cases hs
  · cases hs
    refine h.consume rfl rfl rfl ?_
    rw [given_append, List.filter_append, h.given_eq]
    exact List.append_nil _
  · case h_3 e hpoll =>
    cases hs
    exact h.consume (items_take (poll_item hpoll) _ _) rfl rfl (given_take h rfl)
  · case h_4 bytes hpoll =>
    have hchan := poll_item hpoll
    split at hs
    · case isTrue hping =>
      cases hs
      refine h.consume (items_take hchan _ _) rfl rfl ?_
      have hskip : (given []).filter (· ≠ ping) = (frames [.ok bytes]).filter (· ≠ ping) := by
        rw [hping.2]
        rfl
      simpa using given_take h hskip
    · cases hs
      exact h.consume (items_take hchan _ _) rfl rfl (given_take h rfl)

theorem Inv.pollFrame (h : Inv max fs stop rest s) : Inv max fs stop rest s.pollFrame := by
  unfold Conn.pollFrame
  split
  · exact h
  · refine h.consume rfl rfl rfl ?_
    rw [given_append, List.filter_append, h.given_eq]
    exact List.append_nil _
  · case h_3 f hpoll =>
    refine h.consume (items_take (poll_item hpoll) _ _) rfl rfl (given_take h ?_)
    cases f <;> rfl

theorem Inv.items_of_held (h : Inv max fs none rest s) (hheld : s.task.held = []) :
    s.taken ++ s.chan.toList = fs.map .ok := by
  have hitems := h.items_eq
  rw [items, hheld] at hitems
  simpa using hitems

/-- A step goes on with the stream, or moves what came out of it. -/
theorem Inv.step {a : Act} (h : Inv max fs stop rest s) (hs : s.step max a = some s') :
    ∃ fs' stop' rest', Inv max fs' stop' rest' s' := by
  cases a with
  | read data =>
    obtain ⟨t, ht, rfl⟩ := Option.map_eq_some_iff.mp hs
    obtain ⟨rfl, hheld, htail⟩ := h.tail.read ht
    have hitems := h.items_of_held hheld
    rcases htail with ⟨hheld', htail⟩ | ⟨p, rfl, hp, hmax, hlt⟩ | ⟨e, rfl, hbroken⟩
    · refine ⟨fs, none, rest ++ data, ?_, ?_, h.le, htail, h.given_eq⟩
      · simp [items, hheld', hitems]
      · simp [h.read_eq]
    · refine ⟨fs ++ [p], none, [], ?_, ?_, ?_, .whole p, h.given_eq⟩
      · simp [items, Task.held, hitems]
      · simp [h.read_eq, hp]
      · intro q hq
        rcases List.mem_append.mp hq with hq | hq
        · exact h.le q hq
        · obtain rfl := List.mem_singleton.mp hq
          exact ⟨hmax, hlt⟩
    · refine ⟨fs, some e, rest ++ data, ?_, ?_, h.le, .failed hbroken, h.given_eq⟩
      · simp [items, Task.held, hitems]
      · simp [h.read_eq]
  | endOfStream =>
    obtain ⟨t, ht, rfl⟩ := Option.map_eq_some_iff.mp hs
    obtain ⟨rfl, hheld, rfl, hpartial⟩ := h.tail.endOfStream ht
    refine ⟨fs, some (network "the croc connection ended"), rest, ?_, h.read_eq, h.le,
      .failed (.ended hpartial), h.given_eq⟩
    simp [items, Task.held, h.items_of_held hheld]
  | hand =>
    simp only [Conn.step] at hs
    split at hs
    · case h_1 f htask hchan =>
      cases hs
      refine ⟨fs, stop, rest, ?_, h.read_eq, h.le, ?_, h.given_eq⟩
      · rw [← h.items_eq]
        cases f <;> simp [items, htask, hchan, Task.held, Except.isOk, Except.toBool]
      · have htail := h.tail
        rw [htask] at htail
        cases htail with
        | whole p => exact .header (Nat.succ_pos _)
        | failed hbroken => exact .done hbroken
    · cases hs
  | call c =>
    obtain ⟨-, hs⟩ := Option.ite_none_right_eq_some.mp hs
    cases hs
    exact ⟨fs, stop, rest, h.consume rfl rfl rfl h.given_eq⟩
  | ready =>
    obtain ⟨c, -, hs⟩ := Option.bind_eq_some_iff.mp hs
    exact ⟨fs, stop, rest, h.ready hs⟩
  | timeout =>
    simp only [Conn.step] at hs
    split at hs
    · cases hs
      refine ⟨fs, stop, rest, h.consume rfl rfl rfl ?_⟩
      rw [given_append, List.filter_append, h.given_eq]
      exact List.append_nil _
    · cases hs
      refine ⟨fs, stop, rest, h.consume rfl rfl rfl ?_⟩
      rw [given_append, List.filter_append, h.given_eq]
      exact List.append_nil _
    · cases hs
  | abandon =>
    obtain ⟨-, hs⟩ := Option.ite_none_left_eq_some.mp hs
    cases hs
    exact ⟨fs, stop, rest, h.consume rfl rfl rfl h.given_eq⟩
  | pollFrame =>
    obtain ⟨-, hs⟩ := Option.ite_none_right_eq_some.mp hs
    cases hs
    exact ⟨fs, stop, rest, h.pollFrame⟩

theorem Inv.fromStream : Inv max [] none [] fromStream :=
  ⟨rfl, rfl, by simp, .header (Nat.succ_pos _), rfl⟩

theorem exists_inv {as : List Act} (h : exec (Conn.step max) fromStream as = some s) :
    ∃ fs stop rest, Inv max fs stop rest s := by
  apply exec_invariant (I := fun s => ∃ fs stop rest, Inv max fs stop rest s) ?_ ⟨_, _, _,
    Inv.fromStream⟩ h
  rintro s a s' ⟨fs, stop, rest, h⟩ hs
  exact h.step hs

end Steps

section Runs

variable {max : ℕ} {fs ps : List Bytes} {stop : Option ErrorInfo} {rest : Bytes} {s : Conn}

theorem eq_of_mapM_send {sent : List Bytes} (h : ps.mapM send = .ok sent) :
    sent.flatten = ps.flatMap frame ∧ ∀ p ∈ ps, p.length < 2 ^ 32 := by
  induction ps generalizing sent with
  | nil =>
    cases h
    simp
  | cons p ps ih =>
    rw [List.mapM_cons] at h
    by_cases hp : p.length < 2 ^ 32
    · have hsend : send p = .ok (frame p) := if_pos hp
      rw [hsend] at h
      cases hps : ps.mapM send with
      | error e =>
        rw [hps] at h
        cases h
      | ok more =>
        rw [hps] at h
        cases h
        obtain ⟨hflat, hlt⟩ := ih hps
        refine ⟨by rw [List.flatten_cons, hflat, List.flatMap_cons], ?_⟩
        intro q hq
        rcases List.mem_cons.mp hq with rfl | hq
        · exact hp
        · exact hlt q hq
    · have hsend : send p = .error (network "a frame too long to send") := if_neg hp
      rw [hsend] at h
      cases h

theorem Broken.eq_ended {e : ErrorInfo} (h : Broken max rest e)
    (hps : ∀ p ∈ ps, p.length ≤ max ∧ p.length < 2 ^ 32) (hrest : rest <+: ps.flatMap frame) :
    e = network "the croc connection ended" := by
  obtain ⟨z, hz⟩ := hrest
  cases h with
  | ended h => rfl
  | noMagic hlen hmagic =>
    cases ps with
    | nil =>
      rw [(List.append_eq_nil_iff.mp hz).1] at hlen
      cases hlen
    | cons p ps =>
      refine absurd ?_ hmagic
      have htake : (rest ++ z).take 4 = rest.take 4 := List.take_append_of_le_length (by omega)
      rw [← htake, hz]
      rfl
  | @tooLong len heq hlong hlen =>
    rw [heq] at hz
    cases ps with
    | nil => cases hz
    | cons p ps =>
      obtain ⟨hmax, hlt⟩ := hps p (by simp)
      have hbegin : magic ++ toLeBytes32 len ++ z = magic ++ toLeBytes32 p.length ++
          (p ++ ps.flatMap frame) := by
        rw [hz, List.flatMap_cons, frame, List.append_assoc]
      obtain ⟨rfl, -⟩ := length_inj hlen hlt hbegin
      omega

/-- The frames of what was read are the first of those that were sent. -/
theorem Inv.isPrefix (h : Inv max fs stop rest s)
    (hps : ∀ p ∈ ps, p.length ≤ max ∧ p.length < 2 ^ 32) (hread : s.read <+: ps.flatMap frame) :
    fs <+: ps ∧ (s.read = ps.flatMap frame → fs = ps) ∧
      ∀ e, stop = some e → e = network "the croc connection ended" := by
  have hfs : ∀ p ∈ fs, p.length < 2 ^ 32 := fun p hp => (h.le p hp).2
  have hps' : ∀ p ∈ ps, p.length < 2 ^ 32 := fun p hp => (hps p hp).2
  rw [h.read_eq] at hread
  have hpre := prefixCode_frame.isPrefix hfs hps' hread
  refine ⟨hpre, ?_, ?_⟩
  · intro hall
    rw [h.read_eq] at hall
    rcases prefixCode_frame.eq_or_word hfs hps' hall with ⟨heq, -⟩ | ⟨p, hp, hword⟩
    · exact heq
    · exact absurd hword (h.tail.not_frame_prefix (hps p hp).2 (hps p hp).1)
  · rintro e rfl
    obtain ⟨more, rfl⟩ := hpre
    rw [List.flatMap_append, List.prefix_append_right_inj] at hread
    exact h.tail.broken.eq_ended (fun p hp => hps p (by simp [hp])) hread

theorem Inv.poll_of_error (h : Inv max fs stop rest s) {e : ErrorInfo} (he : .error e ∈ s.taken) :
    s.poll = .closed ∧ s.items = s.taken := by
  have hok : ∀ l : List (Except ErrorInfo Bytes), l <+: fs.map .ok → .error e ∉ l := by
    rintro l hl he
    obtain ⟨p, -, hp⟩ := List.mem_map.mp (hl.subset he)
    cases hp
  have hpre : s.taken <+: fs.map .ok ++ (stop.map .error).toList :=
    ⟨s.chan.toList ++ s.task.held, by rw [← h.items_eq, items, List.append_assoc]⟩
  cases stop with
  | none => exact absurd he (hok _ (by simpa using hpre))
  | some e' =>
    -- the error is the last of the items
    rcases List.prefix_concat_iff.mp hpre with hall | hpre
    · have hitems : s.items = s.taken := h.items_eq.trans hall.symm
      have hnil : s.chan.toList = [] ∧ s.task.held = [] := by
        rw [items, List.append_assoc] at hitems
        exact List.append_eq_nil_iff.mp
          (List.append_cancel_left (hitems.trans (List.append_nil _).symm))
      have hchan : s.chan = none := Option.toList_eq_nil_iff.mp hnil.1
      have htail := h.tail
      generalize htask : s.task = t at htail hnil
      cases htail with
      | failed h => cases hnil.2
      | done h => exact ⟨by simp [poll, hchan, htask], hitems⟩
    · exact absurd he (hok _ hpre)

theorem hand_of_ne (max : ℕ) (hne : s.taken ≠ s.items) :
    ∃ s', (s' = s ∨ s.step max .hand = some s') ∧ ∃ f, s'.poll = .item f := by
  cases hchan : s.chan with
  | some f => exact ⟨s, Or.inl rfl, f, by simp [poll, hchan]⟩
  | none =>
    cases htask : s.task with
    | handing f => exact ⟨_, Or.inr (by simp only [Conn.step, htask, hchan]; rfl), f, rfl⟩
    | header got => exact absurd (by simp [items, hchan, htask, Task.held]) hne
    | body len got => exact absurd (by simp [items, hchan, htask, Task.held]) hne
    | done => exact absurd (by simp [items, hchan, htask, Task.held]) hne

theorem Inv.buffered_le (h : Inv max fs stop rest s) : s.buffered ≤ 2 * max + 7 := by
  have hle : ∀ f ∈ s.items, f.toOption.elim 0 List.length ≤ max := by
    rw [h.items_eq]
    intro f hf
    rcases List.mem_append.mp hf with hf | hf
    · obtain ⟨p, hp, rfl⟩ := List.mem_map.mp hf
      exact (h.le p hp).1
    · obtain ⟨e, -, rfl⟩ := Option.map_eq_some_iff.mp (Option.mem_toList.mp hf)
      exact Nat.zero_le _
  have hchan : (s.chan.toList.map fun f => f.toOption.elim 0 List.length).sum ≤ max := by
    cases hc : s.chan with
    | none => exact Nat.zero_le _
    | some f => simpa using hle f (by simp [items, hc])
  have htail := h.tail
  rw [buffered, List.map_append, List.sum_append]
  cases ht : s.task with
  | header got =>
    rw [ht] at htail
    cases htail with
    | header hlt => simp only [Task.held, List.map_nil, List.sum_nil]; omega
  | body len got =>
    rw [ht] at htail
    cases htail with
    | body hlt hmax hlen => simp only [Task.held, List.map_nil, List.sum_nil]; omega
  | handing f =>
    have := hle f (by simp [items, ht, Task.held])
    simp only [Task.held, List.map_cons, List.map_nil, List.sum_cons, List.sum_nil]
    omega
  | done => simp only [Task.held, List.map_nil, List.sum_nil]; omega

/-- In every run of the task, the stream and those who wait, given up or not: what came out of the
stream is its frames, in order and none longer than `max`, and then the error that ended it, if it
did. What was returned is what was taken, keepalives aside. Where the stream is what `send` made of
some payloads, the frames are the first of them, and all of them once all was read; it then ends
only with its end. After an error nothing more comes. What was not taken yet is there to be taken,
after a step of the task at most, and the frames that wait have room for `max` bytes twice. -/
theorem frames_in_order (max : ℕ) {as : List Act}
    (h : exec (Conn.step max) fromStream as = some s) :
    ∃ (fs : List Bytes) (rest : Bytes), s.read = fs.flatMap frame ++ rest ∧
    (∀ p ∈ fs, p.length ≤ max) ∧
      (s.items = fs.map .ok ∨ ∃ e, s.items = fs.map .ok ++ [.error e] ∧ Broken max rest e) ∧
      (given s.answers).filter (· ≠ ping) = (frames s.taken).filter (· ≠ ping) ∧
      (∀ ps sent, ps.mapM send = .ok sent → (∀ p ∈ ps, p.length ≤ max) → s.read <+: sent.flatten →
        fs <+: ps ∧ (s.read = sent.flatten → fs = ps) ∧
          ∀ e, .error e ∈ s.items → e = network "the croc connection ended") ∧
      (∀ e, .error e ∈ s.taken → s.poll = .closed ∧ s.items = s.taken) ∧
      (s.taken ≠ s.items → ∃ s', (s' = s ∨ s.step max .hand = some s') ∧ ∃ f, s'.poll = .item f) ∧
      s.buffered ≤ 2 * max + 7 := by
  obtain ⟨fs, stop, rest, hinv⟩ := exists_inv h
  refine ⟨fs, rest, hinv.read_eq, fun p hp => (hinv.le p hp).1, ?_, hinv.given_eq, ?_,
    fun e he => hinv.poll_of_error he, hand_of_ne max, hinv.buffered_le⟩
  · cases stop with
    | none => exact Or.inl (by simpa using hinv.items_eq)
    | some e => exact Or.inr ⟨e, hinv.items_eq, hinv.tail.broken⟩
  · intro ps sent hsent hmax hread
    obtain ⟨hflat, hlt⟩ := eq_of_mapM_send hsent
    rw [hflat] at hread ⊢
    obtain ⟨hpre, hall, hend⟩ := hinv.isPrefix (fun p hp => ⟨hmax p hp, hlt p hp⟩) hread
    refine ⟨hpre, hall, fun e he => hend e ?_⟩
    rw [hinv.items_eq] at he
    rcases List.mem_append.mp he with he | he
    · obtain ⟨p, -, hp⟩ := List.mem_map.mp he
      cases hp
    · obtain ⟨e', he', heq⟩ := Option.map_eq_some_iff.mp (Option.mem_toList.mp he)
      cases heq
      exact he'

/-- A keepalive in pieces, over a wait that came to nothing, and a frame, over one that was given
up. -/
def pieces : List Act :=
  [.call .recv, .read (magic.take 3), .timeout, .read (magic.drop 3 ++ toLeBytes32 1),
    .read [1], .hand, .call .recvSkipping, .ready, .read ((frame [122]).take 8), .abandon,
    .read [122], .hand, .call .recvWithin, .ready]

theorem frames_in_order_pieces : ∃ s, exec (Conn.step 64) fromStream pieces = some s ∧
    s.answers = [.error (network "the croc peer stopped responding"), .ok (some [122])] ∧
    ∃ (fs : List Bytes) (rest : Bytes), s.read = fs.flatMap frame ++ rest ∧
      (given s.answers).filter (· ≠ ping) = (frames s.taken).filter (· ≠ ping) := by
  have hrun : (exec (Conn.step 64) fromStream pieces).map (·.answers) =
      some [.error (network "the croc peer stopped responding"), .ok (some [122])] := by
      decide +kernel
  obtain ⟨s, hs, hanswers⟩ := Option.map_eq_some_iff.mp hrun
  obtain ⟨fs, rest, hread, -, -, hgiven, -⟩ := frames_in_order 64 hs
  exact ⟨s, hs, hanswers, fs, rest, hread, hgiven⟩

end Runs

end Conn

end Sukkula.Croc
