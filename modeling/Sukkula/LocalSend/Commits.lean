import Sukkula.LocalSend.Session

/-! # What a session commits

A session commits a file at most once, under the name and size that were
accepted for its id, and only while it takes the upload from the party that made
the offer. It reports `Done` exactly when every file was committed.
-/

namespace Sukkula.LocalSend

open Str Offer

namespace Session

variable {s s' : Session} {id : Str} {state : FileState}

/-- The files of the offer with the tokens that were issued for them. -/
def issued (s : Session) : List (Str × OfferFile × Str) :=
  s.files.map fun e => (e.1, e.2.file, e.2.token)

inductive Step (s : Session) : Session → Prop
  | leave : s.phase = .waiting → ¬ s.Awaits → Step s { s with phase := .ending }
  | giveUp (e bySender) : s.phase = .waiting → s.Awaits →
      Step s { s with bySender := bySender, ended := some e, phase := .ending }
  | refuse (u queue) : s.queue = u :: queue → s.phase = .waiting →
      Step s { s with queue := queue }
  | take (u queue entry) : s.queue = u :: queue → s.phase = .waiting →
      s.files.lookup u.query.fileId = some entry → entry.state = .pending →
      entry.token = u.query.token →
      Step s { s with queue := queue, phase := .receiving u false }
  | begin (u) : s.phase = .receiving u false → Step s { s with phase := .receiving u true }
  | commit (u entry name) : s.phase = .receiving u true →
      s.files.lookup u.query.fileId = some entry →
      Step s { s.setState u.query.fileId .done with
        phase := .waiting
        saved := s.saved ++ [name]
        commits := s.commits ++ [⟨u.query.fileId, entry.file, name⟩] }
  | fail (u begun e) : s.phase = .receiving u begun →
      Step s { s.setState u.query.fileId .failed with phase := .failing u e s.transferCancel }
  | abandon (u e here) : s.phase = .failing u e here →
      Step s { s with bySender := !here, ended := some e, phase := .ending }
  | goOn (u e here) : s.phase = .failing u e here →
      Step s { s with failure := s.failure.or (some e), phase := .waiting }
  | close : s.phase = .ending → Step s { s with queue := [], phase := .releasing }
  | finish : s.phase = .released → Step s { s with phase := .finished s.outcome s.saved }

theorem Step.of_step {a : Act} {rs : List (ℕ × Status)} (h : s.step a = some (s', rs)) :
    Step s s' := by
  cases a with
  | loopEnd =>
    simp only [step] at h
    split_ifs at h with hc
    obtain ⟨rfl, -⟩ := Prod.mk.inj (Option.some.inj h)
    exact .leave hc.1 hc.2
  | seeCancel | seeSenderCancel | stop e =>
    simp only [step] at h
    split_ifs at h with hc
    obtain ⟨rfl, -⟩ := Prod.mk.inj (Option.some.inj h)
    first | exact .giveUp _ true hc.1 hc.2.1 | exact .giveUp _ s.bySender hc.1 hc.2.1 |
      exact .giveUp _ s.bySender hc.1 hc.2
  | recv =>
    simp only [step] at h
    split at h
    · cases h
    · rename_i u queue hq
      split_ifs at h with hc
      split at h
      · split_ifs at h with he <;> obtain ⟨rfl, -⟩ := Prod.mk.inj (Option.some.inj h)
        · exact .take u queue _ hq hc.1 ‹_› he.1 he.2
        · exact .refuse u queue hq hc.1
      · obtain ⟨rfl, -⟩ := Prod.mk.inj (Option.some.inj h)
        exact .refuse u queue hq hc.1
  | begin =>
    simp only [step] at h
    split at h
    · obtain ⟨rfl, -⟩ := Prod.mk.inj (Option.some.inj h)
      exact .begin _ ‹_›
    · cases h
  | commit name =>
    simp only [step] at h
    split at h
    · obtain ⟨entry, he, hs⟩ := Option.map_eq_some_iff.mp h
      obtain ⟨rfl, -⟩ := Prod.mk.inj hs
      exact .commit _ entry name ‹_› he
    · cases h
  | fail e =>
    simp only [step] at h
    split at h
    · obtain ⟨rfl, -⟩ := Prod.mk.inj (Option.some.inj h)
      exact .fail _ _ e ‹_›
    · cases h
  | failed =>
    simp only [step] at h
    split at h
    · obtain ⟨rfl, -⟩ := Prod.mk.inj (Option.some.inj h)
      split_ifs
      · exact .abandon _ _ _ ‹_›
      · exact .goOn _ _ _ ‹_›
    · cases h
  | close =>
    simp only [step] at h
    split_ifs at h with hc
    obtain ⟨rfl, -⟩ := Prod.mk.inj (Option.some.inj h)
    exact .close hc
  | finish =>
    simp only [step] at h
    split_ifs at h with hc
    obtain ⟨rfl, -⟩ := Prod.mk.inj (Option.some.inj h)
    exact .finish hc

theorem setState_files_fst : (s.setState id state).files.map Prod.fst = s.files.map Prod.fst := by
  simp only [setState, List.map_map]
  refine List.map_congr_left fun e _ => ?_
  simp only [Function.comp]
  split_ifs <;> rfl

@[simp] theorem issued_setState : (s.setState id state).issued = s.issued := by
  simp only [issued, setState, List.map_map]
  refine List.map_congr_left fun e _ => ?_
  simp only [Function.comp]
  split_ifs <;> rfl

theorem mem_setState {e : Str × SessionFile} : e ∈ (s.setState id state).files ↔
    (e.1 ≠ id ∧ e ∈ s.files) ∨ (e.1 = id ∧ ∃ f, (id, f) ∈ s.files ∧
      e.2 = { f with state := state }) := by
  obtain ⟨i, f⟩ := e
  simp only [setState, List.mem_map]
  constructor
  · rintro ⟨⟨i', f'⟩, hm, he⟩
    by_cases hi : i' = id
    · subst hi
      rw [if_pos rfl] at he
      obtain ⟨rfl, rfl⟩ := Prod.mk.inj he
      exact Or.inr ⟨rfl, f', hm, rfl⟩
    · rw [if_neg hi] at he
      obtain ⟨rfl, rfl⟩ := Prod.mk.inj he
      exact Or.inl ⟨hi, hm⟩
  · rintro (⟨hne, hm⟩ | ⟨rfl, f', hm, rfl⟩)
    · exact ⟨_, hm, if_neg hne⟩
    · exact ⟨_, hm, if_pos rfl⟩

theorem Step.fixed (h : Step s s') :
    s'.id = s.id ∧ s'.sender = s.sender ∧ s'.issued = s.issued := by
  cases h with
  | commit | fail => exact ⟨rfl, rfl, issued_setState⟩
  | _ => exact ⟨rfl, rfl, rfl⟩

/-- The request came from the party that made the offer, and named this session. -/
def Entitled (s : Session) (u : Upload) : Prop :=
  u.query.caller = s.sender ∧ u.query.sessionId = s.id

def Left (s : Session) : Prop := s.phase = .ending ∨ s.phase = .releasing ∨ s.phase = .released

def Looping (s : Session) : Prop :=
  s.phase = .waiting ∨ (∃ u b, s.phase = .receiving u b) ∨ ∃ u e h, s.phase = .failing u e h

/-- The commits are those of the files that are done, each once. -/
structure Ledger (s : Session) : Prop where
  keys : (s.files.map Prod.fst).Nodup
  once : (s.commits.map Commit.id).Nodup
  done_iff : ∀ e ∈ s.files, e.2.state = .done ↔ e.1 ∈ s.commits.map Commit.id
  listed : ∀ c ∈ s.commits, ∃ e, (c.id, e) ∈ s.files ∧ e.file = c.file
  saved : s.saved = s.commits.map Commit.name

structure Sane (s : Session) : Prop extends Ledger s where
  queue : ∀ u ∈ s.queue, s.Entitled u
  receiving : ∀ u b, s.phase = .receiving u b → s.Entitled u ∧ ∃ e,
    s.files.lookup u.query.fileId = some e ∧ e.state = .pending ∧ e.token = u.query.token
  failing : ∀ u e h, s.phase = .failing u e h → ∃ f ∈ s.files, f.2.state = .failed
  failed : (∃ e ∈ s.files, e.2.state = .failed) →
    s.failure ≠ none ∨ s.ended ≠ none ∨ ∃ u e h, s.phase = .failing u e h
  failure : s.failure ≠ none → ∃ e ∈ s.files, e.2.state = .failed
  ended : s.ended ≠ none → ∃ e ∈ s.files, e.2.state ≠ .done
  looping : s.Looping → s.ended = none
  left : s.Left → s.ended = none → ¬ s.Awaits
  finished : ∀ o saved, s.phase = .finished o saved → saved = s.commits.map Commit.name ∧
    (o = .done ↔ ∀ e ∈ s.files, e.2.state = .done)

namespace Ledger

theorem congr (h : s.Ledger) (hf : s'.files = s.files) (hc : s'.commits = s.commits)
    (hs : s'.saved = s.saved) : s'.Ledger := by
  cases s
  cases s'
  obtain rfl := hf
  obtain rfl := hc
  obtain rfl := hs
  exact ⟨h.keys, h.once, h.done_iff, h.listed, h.saved⟩

theorem mem_iff_lookup (h : s.Ledger) {f : SessionFile} :
    (id, f) ∈ s.files ↔ s.files.lookup id = some f :=
  (Assoc.lookup_eq_some h.keys).symm

theorem listed_setState (h : s.Ledger) (c : Commit) (hc : c ∈ s.commits) :
    ∃ e, (c.id, e) ∈ (s.setState id state).files ∧ e.file = c.file := by
  obtain ⟨e, he, hf⟩ := h.listed c hc
  by_cases hid : c.id = id
  · exact ⟨{ e with state := state }, mem_setState.mpr (Or.inr ⟨hid, e, hid ▸ he, rfl⟩), hf⟩
  · exact ⟨e, mem_setState.mpr (Or.inl ⟨hid, he⟩), hf⟩

theorem not_committed (h : s.Ledger) {f : SessionFile} (hl : s.files.lookup id = some f)
    (hf : f.state ≠ .done) : id ∉ s.commits.map Commit.id :=
  fun hm => hf ((h.done_iff _ (h.mem_iff_lookup.mpr hl)).mpr hm)

theorem fail (h : s.Ledger) {f : SessionFile} (hl : s.files.lookup id = some f)
    (hf : f.state ≠ .done) : (s.setState id .failed).Ledger where
  keys := by
    rw [setState_files_fst]
    exact h.keys
  once := h.once
  done_iff e he := by
    rcases mem_setState.mp he with ⟨-, hm⟩ | ⟨hid, g, -, hg⟩
    · exact h.done_iff e hm
    · rw [hid]
      constructor
      · intro hd
        rw [hg] at hd
        cases hd
      · exact fun hm => absurd hm (h.not_committed hl hf)
  listed := h.listed_setState
  saved := h.saved

theorem commit (h : s.Ledger) {f : SessionFile} {name : Str} {phase : Phase}
    (hl : s.files.lookup id = some f) (hf : f.state ≠ .done) :
    ({ s.setState id .done with
      phase := phase
      saved := s.saved ++ [name]
      commits := s.commits ++ [⟨id, f.file, name⟩] } : Session).Ledger where
  keys := by
    change ((s.setState id .done).files.map Prod.fst).Nodup
    rw [setState_files_fst]
    exact h.keys
  once := by
    rw [List.map_append, List.nodup_append]
    refine ⟨h.once, by simp, ?_⟩
    rintro a ha b hb rfl
    obtain rfl : a = id := by simpa using hb
    exact h.not_committed hl hf ha
  done_iff e he := by
    simp only [List.map_append, List.mem_append, List.map_cons, List.map_nil, List.mem_singleton]
    rcases mem_setState.mp he with ⟨hne, hm⟩ | ⟨hid, g, -, hg⟩
    · rw [h.done_iff e hm]
      exact ⟨Or.inl, fun h' => h'.resolve_right hne⟩
    · rw [hg]
      exact ⟨fun _ => Or.inr hid, fun _ => rfl⟩
  listed c hc := by
    rcases List.mem_append.mp hc with hc | hc
    · exact h.listed_setState c hc
    · obtain rfl := List.mem_singleton.mp hc
      exact ⟨{ f with state := .done },
        mem_setState.mpr (Or.inr ⟨rfl, f, h.mem_iff_lookup.mpr hl, rfl⟩), rfl⟩
  saved := by simp [h.saved]

end Ledger

namespace Sane

theorem new {sender : Party} {files : List (Str × SessionFile)} (hn : (files.map Prod.fst).Nodup)
    (hp : ∀ e ∈ files, e.2.state = .pending) : (Session.new id sender files).Sane where
  keys := hn
  queue := by simp [Session.new]
  receiving := by simp [Session.new]
  failing := by simp [Session.new]
  once := by simp [Session.new]
  done_iff e he := by simp [Session.new, hp e he]
  listed := by simp [Session.new]
  saved := rfl
  failed := by
    rintro ⟨e, he, hf⟩
    rw [hp e he] at hf
    cases hf
  failure h := absurd rfl h
  ended h := absurd rfl h
  looping _ := rfl
  left := by simp [Left, Session.new]
  finished := by simp [Session.new]

/-- A task that has left its loop reports `Done` exactly when every file is done. -/
theorem outcome_eq_done (h : s.Sane) (hp : s.phase = .released) :
    s.outcome = .done ↔ ∀ e ∈ s.files, e.2.state = .done := by
  have hdone : s.outcome = .done ↔ s.ended = none ∧ s.failure = none := by
    unfold outcome
    cases s.ended with
    | some e => simp only [reduceCtorEq, false_and, iff_false]; split_ifs <;> nofun
    | none => cases s.failure <;> simp
  rw [hdone]
  constructor
  · rintro ⟨hended, hfail⟩ e he
    cases hs : e.2.state with
    | done => rfl
    | pending => exact absurd ⟨e, he, hs⟩ (h.left (Or.inr (Or.inr hp)) hended)
    | failed =>
      rcases h.failed ⟨e, he, hs⟩ with h' | h' | ⟨u, e', b, h'⟩
      · exact absurd hfail h'
      · exact absurd hended h'
      · rw [hp] at h'
        cases h'
  · intro hall
    constructor
    · by_contra hne
      obtain ⟨e, he, hs⟩ := h.ended hne
      exact hs (hall e he)
    · by_contra hne
      obtain ⟨e, he, hs⟩ := h.failure hne
      rw [hall e he] at hs
      cases hs

theorem step (h : s.Sane) (hs : Step s s') : s'.Sane := by
  cases hs with
  | leave hp ha =>
    exact { h.toLedger.congr rfl rfl rfl with
      queue := h.queue, receiving := by simp, failing := by simp, failure := h.failure,
      ended := h.ended, looping := by simp [Looping], left := fun _ _ => ha, finished := by simp
      failed := fun hf => by simpa [hp] using h.failed hf }
  | giveUp e by' hp ha =>
    obtain ⟨f, hf, hstate⟩ := ha
    exact { h.toLedger.congr rfl rfl rfl with
      queue := h.queue, receiving := by simp, failing := by simp, failure := h.failure,
      looping := by simp [Looping], left := by simp, finished := by simp
      failed := by simp
      ended := fun _ => ⟨f, hf, by simp [hstate]⟩ }
  | refuse u queue hq hp =>
    exact { h with
      queue := fun v hv => h.queue v (by simp [hq, hv]) }
  | take u queue entry hq hp hl hpend htok =>
    exact { h.toLedger.congr rfl rfl rfl with
      queue := fun v hv => h.queue v (by simp [hq, hv]), failing := by simp, failure := h.failure,
      ended := h.ended, looping := fun _ => h.looping (Or.inl hp), left := by simp [Left]
      finished := by simp
      receiving := fun v b hv => by
        obtain ⟨rfl, -⟩ := Phase.receiving.inj hv
        exact ⟨h.queue u (by simp [hq]), entry, hl, hpend, htok⟩
      failed := fun hf => by simpa [hp] using h.failed hf }
  | begin u hp =>
    exact { h.toLedger.congr rfl rfl rfl with
      queue := h.queue, failing := by simp, failure := h.failure, ended := h.ended
      looping := fun _ => h.looping (Or.inr (Or.inl ⟨u, false, hp⟩)), left := by simp [Left]
      finished := by simp
      receiving := fun v b hv => by
        obtain ⟨rfl, -⟩ := Phase.receiving.inj hv
        exact h.receiving u false hp
      failed := fun hf => by simpa [hp] using h.failed hf }
  | commit u entry name hp hl =>
    obtain ⟨-, e, he, hpend, -⟩ := h.receiving u true hp
    obtain rfl := Option.some.inj (he.symm.trans hl)
    have hrun := h.looping (Or.inr (Or.inl ⟨u, true, hp⟩))
    exact { h.toLedger.commit hl (by simp [hpend]) with
      queue := h.queue, receiving := by simp, failing := by simp, looping := fun _ => hrun
      left := by simp [Left], finished := by simp
      failed := fun ⟨f, hf, hstate⟩ => by
        rcases mem_setState.mp hf with ⟨-, hm⟩ | ⟨-, g, -, hg⟩
        · simpa [hp, setState] using h.failed ⟨f, hm, hstate⟩
        · simp [hg] at hstate
      failure := fun hne => by
        obtain ⟨f, hf, hstate⟩ := h.failure hne
        refine ⟨f, mem_setState.mpr (Or.inl ⟨?_, hf⟩), hstate⟩
        -- The file that failed is not the one that was pending.
        rintro hid
        have hlook := h.mem_iff_lookup.mp (hid ▸ hf : (u.query.fileId, f.2) ∈ s.files)
        obtain rfl := Option.some.inj (hlook.symm.trans hl)
        rw [hpend] at hstate
        cases hstate
      ended := fun hne => absurd hrun hne }
  | fail u b e hp =>
    obtain ⟨-, f, hl, hpend, -⟩ := h.receiving u b hp
    have hrun := h.looping (Or.inr (Or.inl ⟨u, b, hp⟩))
    have hfailed : ∃ e ∈ (s.setState u.query.fileId .failed).files, e.2.state = .failed :=
      ⟨(u.query.fileId, { f with state := .failed }),
        mem_setState.mpr (Or.inr ⟨rfl, f, h.mem_iff_lookup.mpr hl, rfl⟩), rfl⟩
    exact { (h.toLedger.fail hl (by simp [hpend])).congr rfl rfl rfl with
      queue := h.queue, receiving := by simp, failing := fun _ _ _ _ => hfailed
      failure := fun _ => hfailed, ended := fun hne => absurd hrun hne, looping := fun _ => hrun
      left := by simp [Left], finished := by simp, failed := fun _ => by simp }
  | abandon u e here hp =>
    obtain ⟨f, hf, hstate⟩ := h.failing u e here hp
    exact { h.toLedger.congr rfl rfl rfl with
      queue := h.queue, receiving := by simp, failing := by simp, failure := h.failure,
      looping := by simp [Looping], left := by simp, finished := by simp
      failed := by simp
      ended := fun _ => ⟨f, hf, by simp [hstate]⟩ }
  | goOn u e here hp =>
    exact { h.toLedger.congr rfl rfl rfl with
      queue := h.queue, receiving := by simp, failing := by simp
      failure := fun _ => h.failing u e here hp, ended := h.ended
      looping := fun _ => h.looping (Or.inr (Or.inr ⟨u, e, here, hp⟩)), left := by simp [Left]
      finished := by simp
      failed := fun _ => Or.inl (by cases s.failure <;> simp) }
  | close hp =>
    exact { h.toLedger.congr rfl rfl rfl with
      queue := by simp, receiving := by simp, failing := by simp, failure := h.failure
      ended := h.ended, looping := by simp [Looping], left := fun _ => h.left (Or.inl hp)
      finished := by simp
      failed := fun hf => by simpa [hp] using h.failed hf }
  | finish hp =>
    exact { h.toLedger.congr rfl rfl rfl with
      queue := h.queue, receiving := by simp, failing := by simp, failure := h.failure
      ended := h.ended, looping := by simp [Looping], left := by simp [Left]
      failed := fun hf => by simpa [hp] using h.failed hf
      finished := fun o saved hf => by
        obtain ⟨rfl, rfl⟩ := Phase.finished.inj hf
        exact ⟨h.saved, h.outcome_eq_done hp⟩ }

theorem push {u : Upload} (h : s.Sane) (hu : s.Entitled u) :
    ({ s with queue := s.queue ++ [u] } : Session).Sane :=
  { h.toLedger.congr rfl rfl rfl with
    queue := fun v hv => (List.mem_append.mp hv).elim (h.queue v) fun hv =>
      List.mem_singleton.mp hv ▸ hu
    receiving := h.receiving, failing := h.failing, failed := h.failed, failure := h.failure
    ended := h.ended, looping := h.looping, left := h.left, finished := h.finished }

theorem cancel {a b : Bool} (h : s.Sane) :
    ({ s with senderCancel := a, transferCancel := b } : Session).Sane :=
  { h.toLedger.congr rfl rfl rfl with
    queue := h.queue, receiving := h.receiving, failing := h.failing, failed := h.failed
    failure := h.failure, ended := h.ended, looping := h.looping, left := h.left
    finished := h.finished }

theorem release (h : s.Sane) (hp : s.phase = .releasing) :
    ({ s with phase := .released } : Session).Sane :=
  { h.toLedger.congr rfl rfl rfl with
    queue := h.queue, receiving := by simp, failing := by simp, failure := h.failure
    ended := h.ended, looping := by simp [Looping], left := fun _ => h.left (Or.inr (Or.inl hp))
    finished := by simp
    failed := fun hf => by simpa [hp] using h.failed hf }

end Sane

end Session

end Sukkula.LocalSend
