import Sukkula.QuickShare.Chunks

/-! # A receive, chunk by chunk

To `Receive` a chunk is one step, with what the inbox does with it. In `Chunks` it is
several, the bytes decide what the inbox does, and a cancel may come in between.
Every run of `Chunks` is a run of `Receive` in which a chunk comes when the inbox is
done with it.
-/

namespace Sukkula.QuickShare

open Assoc Transition
open LocalSend (ErrorInfo)
open Transfer (ReceivingFile)

namespace Receive

variable {q : Receive} {id : ℤ}

/-- A chunk of this payload goes to the inbox. -/
def Takes (q : Receive) (id : ℤ) : Prop :=
  id ∈ q.pending ∧
    ¬ (id ∉ q.opened ∧ (maxOpenFiles ≤ q.opened.length ∨ q.files[q.ids.idxOf id]? = none))

theorem step_chunk (hp : q.phase = .waiting) (ha : q.awaits = true) (last : Bool) (inbox : Inbox) :
    step q (.chunk id last inbox) =
      if id ∈ q.pending then q.receiveChunk id last inbox else some (q.stop protocolError) := by
  simp [step, hp, ha, process]

theorem Takes.awaits (h : q.Takes id) : q.awaits = true := by
  simp [Receive.awaits, List.ne_nil_of_mem h.1]

theorem Takes.step (h : q.Takes id) (hp : q.phase = .waiting) (last : Bool) (inbox : Inbox) :
    Receive.step q (.chunk id last inbox) = q.receiveChunk id last inbox := by
  rw [step_chunk hp h.awaits, if_pos h.1]

end Receive

namespace Chunks

/-- A chunk that the inbox is busy with has not come yet. -/
def Phase.settled : Phase → Receive.Phase
  | .accepting => .accepting
  | .waiting | .beginning _ _ | .writing _ _ | .committing _ _ _ => .waiting
  | .goodbye => .goodbye
  | .ended result => .ended result

/-- The open files, but for that of the chunk the inbox is busy with. -/
def Phase.Opened (opened : Table ℤ ReceivingFile) (q : Receive) : Phase → Prop
  | .beginning c _ => q.Takes c.payloadId ∧ c.payloadId ∉ q.opened ∧
      ∀ id, opened.lookup id ≠ none ↔ id ∈ q.opened
  | .writing c _ => q.Takes c.payloadId ∧
      ∀ id, opened.lookup id ≠ none ↔ id = c.payloadId ∨ id ∈ q.opened
  | .committing i _ _ => q.Takes i ∧ ∀ id, opened.lookup id ≠ none ↔ id ≠ i ∧ id ∈ q.opened
  | .ended _ => True
  | _ => ∀ id, opened.lookup id ≠ none ↔ id ∈ q.opened

structure Shows (r : Chunks) (q : Receive) : Prop where
  ids : q.ids = r.ids
  files : q.files = r.files
  textId : q.textId = r.textId
  token : q.tokenCancelled = r.tokenCancelled
  pending : q.pending = r.pending
  textPending : q.textPending = r.textPending
  saved : q.saved = r.saved
  placed : q.placed = r.commits.map Commit.name
  phase : q.phase = r.phase.settled
  nodup : q.opened.Nodup
  opened : r.phase.Opened r.opened q

/-- Some steps of `Receive` lead to where this is. -/
def Follows (r : Chunks) (q : Receive) : Prop :=
  ∃ acts q', exec Receive.step q acts = some q' ∧ Shows r q'

variable {stuck : ℤ → Bool} {r r' : Chunks} {q q' : Receive} {a : Act} {b : Receive.Act}
  {c : FileChunk}

theorem Shows.follows (h : Shows r q) : Follows r q := ⟨[], q, rfl, h⟩

theorem Shows.follows_step (h : Shows r q') (hs : Receive.step q b = some q') : Follows r q :=
  ⟨[b], q', exec_cons_eq_some.mpr ⟨q', hs, rfl⟩, h⟩

theorem Shows.follows_stop {e : Ended} (h : Shows r q) (hs : Receive.step q b = some (q.stop e)) :
    Follows (r.stop stuck e) q := by
  refine Shows.follows_step ?_ hs
  exact { h with phase := rfl, opened := trivial }

theorem Shows.follows_phase {phase : Phase} (h : Shows r q)
    (hs : Receive.step q b = some { q with phase := phase.settled })
    (hopened : phase.Opened r.opened { q with phase := phase.settled }) :
      Follows { r with phase } q := by
  refine Shows.follows_step ?_ hs
  exact { h with phase := rfl, opened := hopened }

theorem Shows.awaits (h : Shows r q) : q.awaits = r.awaits := by
  rw [Receive.awaits, h.pending, h.textPending, Chunks.awaits]

theorem Shows.length_opened (h : Shows r q)
    (hmem : ∀ id, r.opened.lookup id ≠ none ↔ id ∈ q.opened) : q.opened.length = r.opened.size := by
  have hperm : q.opened.Perm (r.opened.entries.map Prod.fst) := by
    rw [List.perm_ext_iff_of_nodup h.nodup r.opened.nodup]
    intro id
    rw [Table.mem_keys_iff, hmem]
  rw [hperm.length_eq, List.length_map]
  rfl

theorem Shows.receiveChunk (h : Shows r q) (hp : r.phase = .waiting) (ha : r.awaits = true)
    (c : FileChunk) : Follows (r.receiveChunk stuck c) q := by
  have hq : q.phase = .waiting := by rw [h.phase, hp]; rfl
  have hqa : q.awaits = true := h.awaits.trans ha
  have hmem : ∀ id, r.opened.lookup id ≠ none ↔ id ∈ q.opened := by
    have hopened := h.opened
    rwa [hp] at hopened
  have hcame : Shows { r with chunks := r.chunks ++ [c] } q := { h with ids := h.ids }
  have hfile := congrArg₂ (fun files ids => files[List.idxOf c.payloadId ids]?) h.files h.ids
  unfold Chunks.receiveChunk
  by_cases hpend : c.payloadId ∈ r.pending
  · have hqp : c.payloadId ∈ q.pending := h.pending ▸ hpend
    simp only [if_neg (not_not.mpr hpend)]
    cases ho : r.opened.lookup c.payloadId with
    | some f =>
      have hin : c.payloadId ∈ q.opened := (hmem _).mp (by simp [ho])
      refine Shows.follows { hcame with
        phase := hq, opened := ⟨⟨hqp, fun hno => hno.1 hin⟩, fun id => ?_⟩ }
      rw [hmem]
      exact ⟨Or.inr, fun hid => hid.elim (fun he => he ▸ hin) fun hid => hid⟩
    | none =>
      have hout : c.payloadId ∉ q.opened := fun hin => (hmem _).mpr hin ho
      by_cases hroom : maxOpenFiles ≤ q.opened.length ∨ q.files[q.ids.idxOf c.payloadId]? = none
      · have hstop : Receive.step q (.chunk c.payloadId c.last .written) =
            some (q.stop protocolError) := by
          rw [Receive.step_chunk hq hqa, if_pos hqp, Receive.receiveChunk, if_pos ⟨hout, hroom⟩]
        rw [h.length_opened hmem, hfile] at hroom
        split_ifs with hsize
        · exact hcame.follows_stop hstop
        · rw [hroom.resolve_left hsize]
          exact hcame.follows_stop hstop
      · have htakes : q.Takes c.payloadId := ⟨hqp, fun hno => hroom hno.2⟩
        rw [h.length_opened hmem, hfile, not_or] at hroom
        obtain ⟨file, hf⟩ := Option.ne_none_iff_exists'.mp hroom.2
        rw [if_neg hroom.1, hf]
        exact Shows.follows { hcame with phase := hq, opened := ⟨htakes, hout, hmem⟩ }
  · simp only [if_pos hpend]
    refine hcame.follows_stop (b := .chunk c.payloadId c.last .written) ?_
    rw [Receive.step_chunk hq hqa, if_neg (h.pending ▸ hpend)]

theorem Shows.begun {file : Offer.OfferFile} {answer : Begin} (h : Shows r q)
    (hp : r.phase = .beginning c file) : Follows (r.begun stuck c file answer) q := by
  have hq : q.phase = .waiting := by rw [h.phase, hp]; rfl
  obtain ⟨htakes, hout, hmem⟩ : Phase.Opened r.opened q (.beginning c file) := hp ▸ h.opened
  have hfails : ∀ e, Receive.step q (.chunk c.payloadId c.last (.beginFails e)) =
      some (q.stop (.failed e)) := by
    intro e
    rw [htakes.step hq, Receive.receiveChunk, if_neg htakes.2]
    exact if_neg hout
  cases answer with
  | began =>
    refine Shows.follows { h with phase := hq, opened := ⟨htakes, fun id => ?_⟩ }
    change (r.opened.set c.payloadId _).lookup id ≠ none ↔ _
    rw [Table.lookup_set]
    split_ifs with hid
    · simp [hid]
    · simp [hid, hmem]
  | fails e => exact h.follows_stop (hfails e)
  | statFails e =>
    refine Shows.follows_step ?_ (hfails e)
    exact { h with phase := rfl, opened := trivial }

theorem Shows.wrote {cancelled : Bool} {disk : Except ErrorInfo Unit} (h : Shows r q)
    (hp : r.phase = .writing c cancelled) : Follows (r.wrote stuck c cancelled disk) q := by
  have hq : q.phase = .waiting := by rw [h.phase, hp]; rfl
  obtain ⟨htakes, hmem⟩ : Phase.Opened r.opened q (.writing c cancelled) := hp ▸ h.opened
  obtain ⟨f, hf⟩ := Option.ne_none_iff_exists'.mp ((hmem c.payloadId).mpr (Or.inl rfl))
  have hchunk : ∀ inbox, Receive.step q (.chunk c.payloadId c.last inbox) = _ := fun inbox =>
    (htakes.step hq c.last inbox).trans (if_neg htakes.2)
  simp only [Chunks.wrote, hf]
  split
  · rename_i e _ _
    refine h.follows_stop ((hchunk (.writeFails e)).trans ?_)
    rw [h.token]
  · split_ifs with hlast
    · refine Shows.follows { h with phase := hq, opened := ⟨htakes, fun id => ?_⟩ }
      rw [Table.lookup_remove]
      split_ifs with hid
      · simp [hid]
      · simp [hid, hmem]
    · have hwritten : Receive.step q (.chunk c.payloadId c.last .written) =
          some { q with opened := q.opened.insert c.payloadId } :=
        (hchunk .written).trans (if_neg hlast)
      refine Shows.follows_step ?_ hwritten
      refine { h with phase := hq, nodup := h.nodup.insert, opened := fun id => ?_ }
      rw [Table.lookup_set, List.mem_insert_iff]
      split_ifs with hid
      · simp [hid]
      · simp [hid, hmem]

theorem Shows.committed {id : ℤ} {f : ReceivingFile} {cancelled copyStays : Bool}
    {disk : Except ErrorInfo Str} (h : Shows r q) (hp : r.phase = .committing id f cancelled) :
    Follows (r.committed stuck id f cancelled disk copyStays) q := by
  have hq : q.phase = .waiting := by rw [h.phase, hp]; rfl
  obtain ⟨htakes, hmem⟩ : Phase.Opened r.opened q (.committing id f cancelled) := hp ▸ h.opened
  have hchunk : ∀ inbox, Receive.step q (.chunk id true inbox) = _ := fun inbox =>
    (htakes.step hq true inbox).trans (if_neg htakes.2)
  unfold Chunks.committed
  cases hc : f.commit cancelled disk with
  | error e =>
    have hcommit : Receive.step q (.chunk id true (.commitFails e)) = some (q.stop (.failed e)) :=
      hchunk (.commitFails e)
    refine Shows.follows_step ?_ hcommit
    exact { h with phase := rfl, opened := trivial }
  | ok name =>
    refine Shows.follows_step ?_ (hchunk (.committed name))
    refine { h with
      pending := congrArg (·.erase id) h.pending
      saved := congrArg (· ++ [name]) h.saved
      placed := ?_
      phase := hq
      nodup := h.nodup.erase id
      opened := fun id' => ?_ }
    · rw [List.map_append, ← h.placed]
      rfl
    · rw [hmem, h.nodup.mem_erase_iff]

theorem Shows.process (h : Shows r q) (hp : r.phase = .waiting) (ha : r.awaits = true)
    (hs : r.process stuck a = some r') : Follows r' q := by
  have hq : q.phase = .waiting := by rw [h.phase, hp]; rfl
  have hqa : q.awaits = true := h.awaits.trans ha
  have hstep : ∀ b, b ≠ .cancel → b ≠ .loopEnd → b ≠ .seeCancel → Receive.step q b =
      q.process b := by
    intro b hcancel hloop hsee
    unfold Receive.step
    rw [hq]
    cases b <;> simp_all
  cases a with
  | hungUp =>
    obtain rfl := Option.some.inj hs
    exact h.follows_stop (hstep .hungUp nofun nofun nofun)
  | timedOut =>
    obtain rfl := Option.some.inj hs
    exact h.follows_stop (hstep .timedOut nofun nofun nofun)
  | cancelled =>
    obtain rfl := Option.some.inj hs
    exact h.follows_stop (hstep .cancelled nofun nofun nofun)
  | disconnected =>
    obtain rfl := Option.some.inj hs
    exact h.follows_stop (hstep .disconnected nofun nofun nofun)
  | introduction =>
    obtain rfl := Option.some.inj hs
    exact h.follows_stop (hstep .introduction nofun nofun nofun)
  | badFrame =>
    obtain rfl := Option.some.inj hs
    rw [← h.token]
    exact h.follows_stop (hstep .badFrame nofun nofun nofun)
  | quiet =>
    obtain rfl := Option.some.inj hs
    exact h.follows
  | chunk c =>
    obtain rfl := Option.some.inj hs
    exact h.receiveChunk hp ha c
  | text id t =>
    have htext := hstep (.text id) nofun nofun nofun
    have hiff : q.textPending = true ∧ q.textId = some id ↔ r.textPending = true ∧
        some id = r.textId := by
      rw [h.textPending, h.textId, eq_comm (b := some id)]
    rw [Receive.process] at htext
    rw [Chunks.process] at hs
    by_cases hwanted : r.textPending = true ∧ some id = r.textId
    · rw [if_pos (hiff.mpr hwanted)] at htext
      rw [if_pos hwanted] at hs
      obtain rfl := Option.some.inj hs
      refine Shows.follows_step ?_ htext
      exact { h with textPending := rfl }
    · rw [if_neg (mt hiff.mp hwanted)] at htext
      rw [if_neg hwanted] at hs
      obtain rfl := Option.some.inj hs
      exact h.follows_stop htext
  | sent | fail | cancel | seeCancel | loopEnd | begun | wrote | committed => cases hs

theorem Shows.step (h : Shows r q) (hs : step stuck r a = some r') : Follows r' q := by
  unfold Chunks.step at hs
  split at hs
  · cases hs
  · rename_i hrunning
    obtain rfl := Option.some.inj hs
    have hcancel : Receive.step q .cancel = some { q with tokenCancelled := true } := by
      have hphase := h.phase
      unfold Receive.step
      cases hp : r.phase <;> simp_all [Phase.settled]
    have hopened := h.opened
    refine Shows.follows_step ?_ hcancel
    refine { h with token := rfl, opened := ?_ }
    unfold Phase.Opened at hopened ⊢
    exact hopened
  · rename_i hp
    obtain rfl := Option.some.inj hs
    have hopened : Phase.Opened r.opened q .accepting := hp ▸ h.opened
    refine h.follows_phase (b := .sent) ?_ hopened
    simp [Receive.step, h.phase, hp, Phase.settled]
  · rename_i e hp
    obtain rfl := Option.some.inj hs
    refine h.follows_stop (b := .fail e) ?_
    simp [Receive.step, h.phase, hp, Phase.settled]
  · rename_i hp
    split_ifs at hs with ha
    obtain rfl := Option.some.inj hs
    have hopened : Phase.Opened r.opened q .waiting := hp ▸ h.opened
    refine h.follows_phase (b := .loopEnd) ?_ hopened
    simp [Receive.step, h.phase, hp, Phase.settled, h.awaits, ha]
  · rename_i hp
    split_ifs at hs with ha
    obtain rfl := Option.some.inj hs
    refine h.follows_stop (b := .seeCancel) ?_
    simp [Receive.step, h.phase, hp, Phase.settled, h.awaits, h.token, ha]
  · rename_i hp _ _ _
    split_ifs at hs with ha
    exact h.process hp ha hs
  · rename_i hp
    obtain rfl := Option.some.inj hs
    exact h.begun hp
  · rename_i hp
    obtain rfl := Option.some.inj hs
    exact h.wrote hp
  · rename_i hp
    obtain rfl := Option.some.inj hs
    exact h.committed hp
  · rename_i hp
    obtain rfl := Option.some.inj hs
    refine h.follows_phase (b := .sent) ?_ trivial
    simp [Receive.step, h.phase, hp, Phase.settled, h.saved]
  · cases hs

/-- A receive with its bytes is one without them, which ends as it does and places what it
commits. -/
theorem receive_of_run {ids : List ℤ} {files : List Offer.OfferFile} {textId : Option ℤ}
    {acts : List Act} (hrun : exec (step stuck) (start ids files textId) acts = some r) :
    ∃ acts' q, exec Receive.step (.start ids files textId) acts' = some q ∧
      q.result = r.result ∧ q.placed = r.commits.map Commit.name := by
  have hstart : Shows (start ids files textId) (.start ids files textId) :=
    ⟨rfl, rfl, rfl, rfl, rfl, rfl, rfl, rfl, rfl, List.nodup_nil,
      fun id => by simp [start, Receive.start]⟩
  obtain ⟨acts', q, hq, h⟩ := exec_simulation (fun _ _ _ _ => Shows.step) hstart hrun
  refine ⟨acts', q, hq, ?_, h.placed⟩
  unfold Receive.result Chunks.result
  rw [h.phase]
  cases r.phase <;> rfl

end Chunks

end Sukkula.QuickShare
