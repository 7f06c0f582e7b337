import Sukkula.Croc.Listing

/-! # What was accepted is what is delivered

The files of the list and of the offer are zipped, and `after_accept` goes over
the pairs. What it asks for, what it checks a file against, what it commits and
what it shows is written down here: these are, entry by entry, what the sender's
list says, up to the place where it stops.
-/

namespace Sukkula.Croc

open Transition Receive
open Offer (OfferFile)
open LocalSend (ErrorInfo cancelled)

inductive Event
  | request (wire : RequestWire)
  -- What came is checked against a size and a hash.
  | compare (size : ℕ) (hash : Option Bytes)
  | commit (file : OfferFile)
  | textReceived
  deriving DecidableEq

def due (text : Bool) (f : Offered × OfferFile) : List Event :=
  if f.1.size = 0 then if text then [] else [.commit f.2]
  else [.request (writeRequest f.1.index), .compare f.1.size f.1.hash,
    if text then .textReceived else .commit f.2]

/-- The check against the list, where the merge is done. -/
def compared (theirs : Offered) (m : Merge) : List Event :=
  match m.result theirs.size with
  | some (.ok _) => [.compare theirs.size theirs.hash]
  | _ => []

def outward (ses : Session) (r : Receive) (a : Act) : List Event :=
  match r.phase, r.todo, a with
  | .head, (theirs, _) :: _, .begin =>
    if theirs.size = 0 then [] else [.request (writeRequest theirs.index)]
  | .merging m, (theirs, _) :: _, .merge a =>
    match m.step ses theirs.size a with
    | some m' => compared theirs m'
    | none => []
  | .empty, (_, ours) :: _, .commit _ => [.commit ours]
  | .placing _, (_, ours) :: _, .commit _ => [.commit ours]
  | .placing _, _ :: _, .emit => [.textReceived]
  | _, _, _ => []

/-- A receive, with what it did to the outside. -/
structure Delivery where
  receive : Receive
  log : List Event

namespace Delivery

def start (listed : Message.Offer) (offer : Sukkula.Offer) : Delivery where
  receive := .start ((listed.files.map (·.toOffered)).zip offer.files)
  log := []

def step (ses : Session) (text : Bool) (rooms : ℕ) (d : Delivery) (a : Act) : Option Delivery :=
  (d.receive.step ses text rooms a).map fun r => ⟨r, d.log ++ outward ses d.receive a⟩

end Delivery

section Moves

variable {ses : Session} {text : Bool} {rooms : ℕ} {r r' : Receive} {a : Act}

/-- What a step does, with what it does to the outside. -/
inductive Logged (text : Bool) (r : Receive) : Receive → List Event → Prop
  | stop (e : ErrorInfo) : Logged text r (r.stop e) []
  | stay : Logged text r r []
  | skip {f : Offered × OfferFile} {rest : List (Offered × OfferFile)} (hp : r.phase = .head)
      (htodo : r.todo = f :: rest) (hsize : f.1.size = 0) (ht : text = true) :
      Logged text r { r with todo := rest } []
  | empty {f : Offered × OfferFile} {rest : List (Offered × OfferFile)} (hp : r.phase = .head)
      (htodo : r.todo = f :: rest) (hsize : f.1.size = 0) (ht : text = false) :
      Logged text r { r with phase := .empty } []
  | request {f : Offered × OfferFile} {rest : List (Offered × OfferFile)} (hp : r.phase = .head)
      (htodo : r.todo = f :: rest) (hsize : f.1.size ≠ 0) :
      Logged text r { r with phase := .requesting } [.request (writeRequest f.1.index)]
  | placeEmpty {f : Offered × OfferFile} {rest : List (Offered × OfferFile)} (hp : r.phase = .empty)
      (htodo : r.todo = f :: rest) (name : Str) :
      Logged text r (r.place f.1 rest name []) [.commit f.2]
  | start (hp : r.phase = .requesting) (m : Merge) : Logged text r { r with phase := .merging m } []
  | merge {f : Offered × OfferFile} {rest : List (Offered × OfferFile)} {m : Merge}
      (hp : r.phase = .merging m) (htodo : r.todo = f :: rest) (m' : Merge) :
      Logged text r (r.merged f.1 m') (compared f.1 m')
  | closed {m : Merge} (hp : r.phase = .closing m) : Logged text r { r with phase := .closed m } []
  | placing {m : Merge} (hp : r.phase = .closed m) : Logged text r { r with phase := .placing m } []
  | place {f : Offered × OfferFile} {rest : List (Offered × OfferFile)} {m : Merge}
      (hp : r.phase = .placing m) (htodo : r.todo = f :: rest) (ht : text = false) (name : Str) :
      Logged text r (r.place f.1 rest name m.sink) [.commit f.2]
  | shown {f : Offered × OfferFile} {rest : List (Offered × OfferFile)} {m : Merge}
      (hp : r.phase = .placing m) (htodo : r.todo = f :: rest) (ht : text = true) :
      Logged text r { r with todo := rest, phase := .head } [.textReceived]
  | goodbye (hp : r.phase = .head) (htodo : r.todo = []) :
    Logged text r { r with phase := .goodbye } []
  | done (hp : r.phase = .goodbye) : Logged text r { r with phase := .ended (.ok r.saved) } []

theorem logged_next {f : Offered × OfferFile} {rest : List (Offered × OfferFile)}
    (hp : r.phase = .head) (htodo : r.todo = f :: rest) (h : r.next text f.1 rest a = some r') :
    Logged text r r' (outward ses r a) := by
  unfold outward
  rw [hp, htodo]
  cases a with
  | skip =>
    simp only [next] at h
    split_ifs at h with hskip
    exact Option.some.inj h ▸ .skip hp htodo hskip.1 hskip.2
  | begin =>
    simp only [next] at h
    split_ifs at h with hsize htext
    · simp only [hsize, if_true]
      exact Option.some.inj h ▸ .empty hp htodo hsize (by simpa using htext)
    · simp only [hsize, if_false]
      exact Option.some.inj h ▸ .request hp htodo hsize
  | fail e =>
    simp only [next] at h
    split_ifs at h
    exact Option.some.inj h ▸ .stop e
  | sent | merge | message | commit | emit | cancel => cases h

theorem logged_answered {m : Merge} (hp : r.phase = .closed m) (kind : Kind) :
    Logged text r (r.answered m kind) [] := by
  cases kind with
  | closeRecipient => exact .placing hp
  | other | externalIp => exact .stay
  | error | pake | pakeConfirm | fileInfo | recipientReady | closeSender | finished => exact .stop _

def Act.seen : Act → Bool
  | .begin | .merge _ | .commit _ | .emit => true
  | _ => false

theorem Logged.unseen (ha : Act.seen a = false) (h : Logged text r r' []) :
    Logged text r r' (outward ses r a) := by
  have hnil : outward ses r a = [] := by
    unfold outward
    split
    · cases ha
    · cases ha
    · cases ha
    · cases ha
    · cases ha
    · rfl
  rw [hnil]
  exact h

theorem logged_of_step (h : r.step ses text rooms a = some r') :
    Logged text r r' (outward ses r a) := by
  unfold Receive.step at h
  split at h
  · cases h
  · exact .unseen rfl (Option.some.inj h ▸ .stop _)
  · exact .unseen rfl (Option.some.inj h ▸ .goodbye ‹_› ‹_›)
  · exact logged_next ‹_› ‹r.todo = _› h
  · rename_i hp htodo
    simp only [outward, hp, htodo]
    exact Option.some.inj h ▸ .placeEmpty hp htodo _
  · exact .unseen rfl (Option.some.inj h ▸ .start ‹_› _)
  · rename_i hp htodo
    obtain ⟨m', hm, rfl⟩ := Option.map_eq_some_iff.mp h
    simp only [outward, hp, htodo, hm]
    exact .merge hp htodo m'
  · exact .unseen rfl (Option.some.inj h ▸ .closed ‹_›)
  · exact .unseen rfl (Option.some.inj h ▸ logged_answered ‹_› _)
  · rename_i hp htodo
    split_ifs at h with htext
    simp only [outward, hp, htodo]
    exact Option.some.inj h ▸ .place hp htodo (by simpa using htext) _
  · rename_i hp htodo
    split_ifs at h with htext
    simp only [outward, hp, htodo]
    exact Option.some.inj h ▸ .shown hp htodo htext
  · exact .unseen rfl (Option.some.inj h ▸ .done ‹_›)
  · exact .unseen rfl (Option.some.inj h ▸ .stop _)
  · exact .unseen rfl (Option.some.inj h ▸ .stop _)
  · exact .unseen rfl (Option.some.inj h ▸ .stop _)
  · exact .unseen rfl (Option.some.inj h ▸ .stop _)
  · split_ifs at h
    exact .unseen rfl (Option.some.inj h ▸ .stop _)
  · cases h

end Moves

section Aligned

variable {ses : Session} {text : Bool} {rooms : ℕ} {r r' : Receive} {log : List Event}
  {pairs : List (Offered × OfferFile)}

def Current (text : Bool) (cur : List Event) : Phase → List (Offered × OfferFile) → Prop
  | .head, _ => cur = []
  | .empty, f :: _ => f.1.size = 0 ∧ text = false ∧ cur = []
  | .requesting, f :: _ | .merging _, f :: _ =>
    f.1.size ≠ 0 ∧ cur = [.request (writeRequest f.1.index)]
  | .closing _, f :: _ | .closed _, f :: _ | .placing _, f :: _ =>
    f.1.size ≠ 0 ∧ cur = [.request (writeRequest f.1.index), .compare f.1.size f.1.hash]
  | .goodbye, todo | .ended (.ok _), todo => todo = [] ∧ cur = []
  | .ended (.error _), todo => cur <+: todo.flatMap (due text)
  | _, [] => False

/-- What has been done for the files before, and for the one at work. -/
structure Aligned (text : Bool) (pairs : List (Offered × OfferFile)) (r : Receive)
    (log : List Event) (done : List (Offered × OfferFile)) (cur : List Event) : Prop where
  split : pairs = done ++ r.todo
  log_eq : log = done.flatMap (due text) ++ cur
  current : Current text cur r.phase r.todo
  placed : r.placed.map Placed.theirs = if text then [] else done.map Prod.fst

theorem due_of_size {f : Offered × OfferFile} (hsize : f.1.size ≠ 0) : due text f =
    [.request (writeRequest f.1.index), .compare f.1.size f.1.hash,
      if text then .textReceived else .commit f.2] := if_neg hsize

section Phases

variable {cur : List Event} {todo : List (Offered × OfferFile)} {m : Merge}

theorem Current.merging (h : Current text cur .requesting todo) (m : Merge) :
    Current text cur (.merging m) todo := by
  cases todo <;> exact h

theorem Current.closed (h : Current text cur (.closing m) todo) :
    Current text cur (.closed m) todo := by
  cases todo <;> exact h

theorem Current.placing (h : Current text cur (.closed m) todo) :
    Current text cur (.placing m) todo := by
  cases todo <;> exact h

end Phases

theorem Current.isPrefix {cur : List Event} {phase : Phase} {todo : List (Offered × OfferFile)}
    (h : Current text cur phase todo) : cur <+: todo.flatMap (due text) := by
  have hreq : ∀ {f : Offered × OfferFile} (rest : List (Offered × OfferFile)), f.1.size ≠ 0 →
      [.request (writeRequest f.1.index), .compare f.1.size f.1.hash] <+: (f :: rest).flatMap
      (due text) := by
    intro f rest hsize
    rw [List.flatMap_cons, due_of_size hsize]
    exact List.prefix_append _ _
  unfold Current at h
  split at h
  · rw [h]
    exact List.nil_prefix
  · rw [h.2.2]
    exact List.nil_prefix
  · rw [h.2]
    exact (List.prefix_append [_] [_]).trans (hreq _ h.1)
  · rw [h.2]
    exact (List.prefix_append [_] [_]).trans (hreq _ h.1)
  · rw [h.2]
    exact hreq _ h.1
  · rw [h.2]
    exact hreq _ h.1
  · rw [h.2]
    exact hreq _ h.1
  · rw [h.2]
    exact List.nil_prefix
  · rw [h.2]
    exact List.nil_prefix
  · exact h
  · exact h.elim

namespace Aligned

variable {done : List (Offered × OfferFile)} {cur events : List Event}

theorem isPrefix (h : Aligned text pairs r log done cur) : log <+: pairs.flatMap (due text) := by
  rw [h.split, h.log_eq, List.flatMap_append]
  exact (List.prefix_append_right_inj _).mpr h.current.isPrefix

theorem move (h : Aligned text pairs r log done cur) (phase : Phase)
    (hcur : Current text (cur ++ events) phase r.todo) :
    Aligned text pairs { r with phase := phase } (log ++ events) done (cur ++ events) where
  split := h.split
  log_eq := by rw [h.log_eq, List.append_assoc]
  current := hcur
  placed := h.placed

theorem next (h : Aligned text pairs r log done cur) {f : Offered × OfferFile}
    {rest : List (Offered × OfferFile)} (htodo : r.todo = f :: rest)
    (hdue : cur ++ events = due text f) (h' : r'.todo = rest ∧ r'.phase = .head)
    (hplaced : r'.placed.map Placed.theirs =
      r.placed.map Placed.theirs ++ if text then [] else [f.1]) :
    Aligned text pairs r' (log ++ events) (done ++ [f]) [] where
  split := by rw [h.split, htodo, h'.1, List.append_assoc, List.singleton_append]
  log_eq := by
    rw [h.log_eq, List.append_assoc, hdue, List.flatMap_append, List.flatMap_singleton,
      List.append_nil]
  current := by
    rw [h'.2]
    rfl
  placed := by
    rw [hplaced, h.placed]
    split_ifs <;> simp

theorem stop (h : Aligned text pairs r log done cur) (e : ErrorInfo) :
    Aligned text pairs (r.stop e) (log ++ []) done (cur ++ []) := by
  apply h.move
  rw [List.append_nil]
  exact h.current.isPrefix

theorem merged (h : Aligned text pairs r log done cur) {f : Offered × OfferFile}
    {rest : List (Offered × OfferFile)} {m : Merge} (hp : r.phase = .merging m)
    (htodo : r.todo = f :: rest) (m' : Merge) :
    Aligned text pairs (r.merged f.1 m') (log ++ compared f.1 m') done
    (cur ++ compared f.1 m') := by
  have hcur := h.current
  rw [hp, htodo] at hcur
  obtain ⟨hsize, rfl⟩ := hcur
  unfold Receive.merged compared
  cases hres : m'.result f.1.size with
  | none =>
    apply h.move
    rw [htodo]
    exact ⟨hsize, rfl⟩
  | some res =>
    cases res with
    | error e => exact h.stop e
    | ok hash =>
      simp only
      split_ifs
      · apply h.move
        rw [htodo]
        exact ⟨hsize, rfl⟩
      · apply h.move
        rw [htodo]
        change _ <+: (f :: rest).flatMap (due text)
        rw [List.flatMap_cons, due_of_size hsize]
        exact List.prefix_append _ _

theorem of_logged (h : Aligned text pairs r log done cur) (hm : Logged text r r' events) :
    ∃ done' cur', Aligned text pairs r' (log ++ events) done' cur' := by
  have hcur := h.current
  cases hm with
  | stop e => exact ⟨_, _, h.stop e⟩
  | stay => exact ⟨done, cur, by rwa [List.append_nil]⟩
  | skip hp htodo hsize ht =>
    rw [hp] at hcur
    obtain rfl : cur = [] := hcur
    subst ht
    exact ⟨_, _, h.next htodo (by simp [due, hsize]) ⟨rfl, hp⟩ (by simp)⟩
  | empty hp htodo hsize ht =>
    rw [hp] at hcur
    obtain rfl : cur = [] := hcur
    refine ⟨_, _, h.move _ ?_⟩
    rw [htodo]
    exact ⟨hsize, ht, rfl⟩
  | request hp htodo hsize =>
    rw [hp] at hcur
    obtain rfl : cur = [] := hcur
    refine ⟨_, _, h.move _ ?_⟩
    rw [htodo]
    exact ⟨hsize, rfl⟩
  | placeEmpty hp htodo name =>
    rw [hp, htodo] at hcur
    obtain ⟨hsize, rfl, rfl⟩ := hcur
    exact ⟨_, _, h.next htodo (by simp [due, hsize]) ⟨rfl, rfl⟩ (by simp [Receive.place])⟩
  | start hp m =>
    rw [hp, ← List.append_nil cur] at hcur
    exact ⟨_, _, h.move _ (hcur.merging m)⟩
  | merge hp htodo m' => exact ⟨_, _, h.merged hp htodo m'⟩
  | closed hp =>
    rw [hp, ← List.append_nil cur] at hcur
    exact ⟨_, _, h.move _ hcur.closed⟩
  | placing hp =>
    rw [hp, ← List.append_nil cur] at hcur
    exact ⟨_, _, h.move _ hcur.placing⟩
  | place hp htodo ht name =>
    rw [hp, htodo] at hcur
    obtain ⟨hsize, rfl⟩ := hcur
    subst ht
    exact ⟨_, _, h.next htodo (by simp [due, hsize]) ⟨rfl, rfl⟩ (by simp [Receive.place])⟩
  | shown hp htodo ht =>
    rw [hp, htodo] at hcur
    obtain ⟨hsize, rfl⟩ := hcur
    subst ht
    exact ⟨_, _, h.next htodo (by simp [due, hsize]) ⟨rfl, rfl⟩ (by simp)⟩
  | goodbye hp htodo =>
    rw [hp] at hcur
    obtain rfl : cur = [] := hcur
    exact ⟨_, _, h.move _ ⟨htodo, rfl⟩⟩
  | done hp =>
    rw [hp] at hcur
    obtain ⟨htodo, rfl⟩ := hcur
    exact ⟨_, _, h.move _ ⟨htodo, rfl⟩⟩

theorem of_step {d d' : Delivery} {a : Act} (h : Aligned text pairs d.receive d.log done cur)
    (hs : d.step ses text rooms a = some d') :
    ∃ done' cur', Aligned text pairs d'.receive d'.log done' cur' := by
  obtain ⟨r, hr, rfl⟩ := Option.map_eq_some_iff.mp hs
  exact h.of_logged (logged_of_step hr)

theorem of_run {listed : Message.Offer} {offer : Sukkula.Offer} {as : List Act} {d : Delivery}
    (hrun : exec (Delivery.step ses text rooms) (.start listed offer) as = some d) :
    ∃ done cur, Aligned text ((listed.files.map (·.toOffered)).zip offer.files) d.receive d.log
    done cur := by
  refine exec_invariant (I := fun d => ∃ done cur,
    Aligned text _ d.receive d.log done cur) ?_ ?_ hrun
  · rintro d a d' ⟨_, _, h⟩ hs
    exact h.of_step hs
  · exact ⟨[], [], rfl, rfl, rfl, by simp [Delivery.start, Receive.start]⟩

end Aligned

end Aligned

theorem receive_run {ses : Session} {text : Bool} {rooms : ℕ} {as : List Act} {d d' : Delivery}
    (h : exec (Delivery.step ses text rooms) d as = some d') :
    exec (Receive.step ses text rooms) d.receive as = some d'.receive := by
  induction as generalizing d with
  | nil => exact congrArg some (congrArg Delivery.receive (Option.some.inj h))
  | cons a as ih =>
    obtain ⟨t, ht, hr⟩ := exec_cons_eq_some.mp h
    obtain ⟨r, hstep, rfl⟩ := Option.map_eq_some_iff.mp ht
    exact exec_cons_eq_some.mpr ⟨r, hstep, ih hr⟩

def commits (log : List Event) : List OfferFile :=
  log.filterMap fun
    | .commit f => some f
    | _ => none

def texts (log : List Event) : ℕ := log.count .textReceived

/-- What an entry of the sender's list is due. -/
def dueOf (decode : Str → Option Bytes) (text : Bool) (e : FileWire × ℕ) : List Event :=
  due text ((listedOf decode e).toOffered, acceptedOf text e)

section Delivered

variable {decode : Str → Option Bytes} {wire : SenderWire} {text : Bool}

theorem zip_eq {listed : Message.Offer} {offer : Sukkula.Offer}
    (hread : readOffer decode wire = .ok listed)
    (hvalid : Offer.validate (rawOffer listed) = .ok offer) :
    (listed.files.map (·.toOffered)).zip offer.files =
      wire.entries.map fun e => ((listedOf decode e).toOffered, acceptedOf wire.text e) := by
  rw [(readOffer_eq hread).1, accepted_eq hread hvalid, List.map_map, List.zip_map']
  rfl

theorem commits_flatMap (es : List (FileWire × ℕ)) : commits (es.flatMap (dueOf decode text)) =
    if text then [] else es.map (acceptedOf text) := by
  induction es with
  | nil => simp [commits]
  | cons e es ih =>
    have hone : commits (dueOf decode text e) = if text then [] else [acceptedOf text e] := by
      unfold dueOf due
      split_ifs <;> rfl
    rw [List.flatMap_cons, commits, List.filterMap_append, ← commits, ← commits, hone, ih]
    split_ifs <;> rfl

theorem texts_dueOf (e : FileWire × ℕ) :
    texts (dueOf decode text e) = if text ∧ (acceptedOf text e).size ≠ 0 then 1 else 0 := by
  unfold dueOf due
  change texts (if (acceptedOf text e).size = 0 then _ else _) = _
  by_cases hsize : (acceptedOf text e).size = 0
  · cases text <;> simp [texts, hsize]
  · cases text <;> simp [texts, hsize]

theorem texts_flatMap {es : List (FileWire × ℕ)} (hone : text → es.length = 1) :
    texts (es.flatMap (dueOf decode text)) =
      if text ∧ ∃ f ∈ es.map (acceptedOf text), f.size ≠ 0 then 1 else 0 := by
  cases text with
  | false =>
    have hnone : ∀ e ∈ es, texts (dueOf decode false e) = 0 := fun e _ => by rw [texts_dueOf]; simp
    simp only [texts, List.count_flatMap, Bool.false_eq_true, false_and, if_false]
    exact List.sum_eq_zero fun n hn => by
      obtain ⟨e, he, rfl⟩ := List.mem_map.mp hn
      exact hnone e he
  | true =>
    obtain ⟨e, rfl⟩ := List.length_eq_one_iff.mp (hone rfl)
    rw [List.flatMap_singleton, texts_dueOf]
    simp

theorem request_mem_dueOf {e : FileWire × ℕ} {request : RequestWire}
    (h : .request request ∈ dueOf decode text e) : request = writeRequest e.2 := by
  unfold dueOf due at h
  split_ifs at h with hsize htext htext
  · cases h
  · simp at h
  · simpa [listedOf] using h
  · simpa [listedOf] using h

end Delivered

/-- What is asked for, what it is checked against, what is committed and what is shown stems, entry
by entry, from the sender's list without its links, and so does what the user accepted. Where all of
it succeeds, each entry is committed once, and a text is shown once instead unless it is empty. -/
theorem delivered_as_accepted (decode : Str → Option Bytes) (wire : SenderWire)
    (listed : Message.Offer) (offer : Sukkula.Offer) (hread : readOffer decode wire = .ok listed)
    (hvalid : Offer.validate (rawOffer listed) = .ok offer) (ses : Session) (rooms : ℕ)
    (as : List Act) (d : Delivery)
    (hrun : exec (Delivery.step ses listed.text rooms) (.start listed offer) as = some d) :
    (∀ e ∈ wire.entries, 0 ≤ e.1.size.toInt) ∧ offer.files =
    wire.entries.map (acceptedOf wire.text) ∧
    d.log <+: wire.entries.flatMap (dueOf decode wire.text) ∧
    (∀ (i : ℕ) p, d.receive.placed[i]? = some p → ∃ e, wire.entries[i]? = some e ∧
      p.theirs = (listedOf decode e).toOffered ∧ Whole ses p) ∧
    (∀ request, .request request ∈ d.log →
      ∃ f, (wire.files.getD [])[request.index.toNat]? = some f ∧ f.symlink = []) ∧
    ∀ saved, d.receive.phase = .ended (.ok saved) →
      d.log = wire.entries.flatMap (dueOf decode wire.text) ∧
      commits d.log = (if wire.text then [] else offer.files) ∧
      texts d.log = if wire.text ∧ ∃ f ∈ offer.files, f.size ≠ 0 then 1 else 0 := by
  obtain ⟨hfiles, htext, hsizes, hone⟩ := readOffer_eq hread
  have hoffer := accepted_eq hread hvalid
  obtain ⟨done, cur, hal⟩ := Aligned.of_run hrun
  have hwhole := (Sound.of_run (receive_run hrun)).whole
  rw [zip_eq hread hvalid, htext] at hal
  have hlog : d.log <+: wire.entries.flatMap (dueOf decode wire.text) := by
    have := hal.isPrefix
    rwa [List.flatMap_map] at this
  refine ⟨hsizes, hoffer, hlog, ?_, ?_, ?_⟩
  · intro i p hp
    have hi : (d.receive.placed.map Placed.theirs)[i]? = some p.theirs := by
      rw [List.getElem?_map, hp, Option.map_some]
    rw [hal.placed] at hi
    split_ifs at hi with ht
    · simp at hi
    · obtain ⟨f, hf, htheirs⟩ := Option.map_eq_some_iff.mp (List.getElem?_map.symm.trans hi)
      have hpair : (done ++ d.receive.todo)[i]? = done[i]? :=
        List.getElem?_append_left (List.getElem?_eq_some_iff.mp hf).1
      rw [← hal.split, hf, List.getElem?_map] at hpair
      obtain ⟨e, he, rfl⟩ := Option.map_eq_some_iff.mp hpair
      exact ⟨e, he, htheirs.symm, hwhole p (List.mem_of_getElem? hp)⟩
  · intro request hmem
    obtain ⟨e, he, hdue⟩ := List.mem_flatMap.mp (hlog.subset hmem)
    obtain ⟨hget, hlink, hlt⟩ := mem_entries he
    rw [request_mem_dueOf hdue]
    refine ⟨e.1, ?_, hlink⟩
    have hindex : (writeRequest e.2).index.toNat = e.2 := by
      simp only [writeRequest]
      omega
    rw [hindex]
    exact hget
  · intro saved hended
    have hcur := hal.current
    rw [hended] at hcur
    obtain ⟨htodo, rfl⟩ := hcur
    have hall : d.log = wire.entries.flatMap (dueOf decode wire.text) := by
      have hdone := hal.split
      rw [htodo, List.append_nil] at hdone
      rw [hal.log_eq, ← hdone, List.append_nil, List.flatMap_map]
      rfl
    rw [hall, commits_flatMap, hoffer]
    refine ⟨rfl, rfl, ?_⟩
    exact texts_flatMap hone

/-- A link, an empty file and one of three bytes. -/
def mixedWire : SenderWire where
  files := some [{ name := ['l'], symlink := ['t'] }, { name := ['e'] },
    { name := ['a'], size := 3, hash := some ['h'] }]
  length_lt := by decide

/-- The hash of the three bytes, however it is written. -/
def mixedHash (_ : Str) : Option Bytes := some (xxh64 [1, 2, 3])

def mixedListed : Message.Offer where
  files := [⟨⟨1, 0, none, zero_lt⟩, ['e']⟩, ⟨⟨2, 3, some (xxh64 [1, 2, 3]), three_lt⟩, ['a']⟩]
  text := false
  compressed := true

def mixedOffer : Sukkula.Offer := Offer.clean (rawOffer mixedListed)

def Delivery.isDone (d : Delivery) : Bool :=
  match d.receive.phase with
  | .ended (.ok _) => true
  | _ => false

/-- The link is not asked for; the other two are committed as they were accepted. -/
theorem delivered_as_accepted_mixed : ∃ d,
    exec (Delivery.step plain false 2) (.start mixedListed mixedOffer)
      (.begin :: .commit ['e'] :: threeBytesRun) = some d ∧
    mixedOffer.files = mixedWire.entries.map (acceptedOf false) ∧ commits d.log = mixedOffer.files ∧
    Event.request (writeRequest 0) ∉ d.log := by
  have hread : readOffer mixedHash mixedWire = .ok mixedListed := by decide +kernel
  have hvalid : Offer.validate (rawOffer mixedListed) = .ok mixedOffer := by decide +kernel
  have hrun : (exec (Delivery.step plain false 2) (.start mixedListed mixedOffer)
      (.begin :: .commit ['e'] :: threeBytesRun)).map Delivery.isDone =
      some true := by decide +kernel
  obtain ⟨d, hd, hdone⟩ := Option.map_eq_some_iff.mp hrun
  obtain ⟨-, hfiles, -, -, hlinks, hall⟩ :=
    delivered_as_accepted mixedHash mixedWire mixedListed mixedOffer hread hvalid plain 2 _ d hd
  have hended : ∃ saved, d.receive.phase = .ended (.ok saved) := by
    unfold Delivery.isDone at hdone
    split at hdone
    · exact ⟨_, ‹_›⟩
    · cases hdone
  obtain ⟨saved, hended⟩ := hended
  refine ⟨d, hd, hfiles, (hall saved hended).2.1, fun hmem => ?_⟩
  obtain ⟨f, hf, hlink⟩ := hlinks _ hmem
  obtain rfl := Option.some.inj hf
  cases hlink

end Sukkula.Croc
