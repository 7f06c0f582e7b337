import Sukkula.QuickShare.Sent

/-! # What a Quick Share send puts on the wire

Nothing of what is sent goes out before the receiver was told of it and said
yes. A send that ends well has sent every file to its last byte; one that fails
tells the receiver so, once.
-/

namespace Sukkula.QuickShare.Send

open Assoc Transition Outbound
open Croc (utf8)
open LocalSend (ErrorInfo ioChunkBytes)

variable {o o' : Outbound} {s t : Send} {files : List OutgoingFile} {draws : ℕ → NewId × NewId}
  {ms : List FileMetadata} {progress : List ℕ} {done : List Part} {cur : Option Part}
  {rest : List (FileMetadata × OutgoingFile)} {d : Part} {body : Bytes}

/-- What is known of the file at hand; `more` is read of it and not yet sent. -/
def Sending (s : Send) (c : Cursor) (more : List Bytes) : Prop :=
  ∃ files draws done m bs rest, s.payload = .files files ∧
    Going s.outbound s.progress files draws done (some ((m, c.file), bs)) rest ∧
    c.id = m.payloadId ∧ c.rest = rest.map (fun p => (p.1.payloadId, p.2)) ∧
    bs.flatten.length + c.remaining = c.file.size ∧ s.pieces = done.map Prod.snd ++ [bs ++ more] ∧
    ∀ b ∈ more, 0 < b.length ∧ b.length ≤ ioChunkBytes

/-- What is known of a text; `frames` is what went out of it. -/
structure Texting (s : Send) (t : Str) (frames : ℤ → List Frame) (amounts : List ℕ) : Prop where
  payload : s.payload = .text t
  wire : s.outbound.payload = s.payload.wire
  ordered : Ordered s.outbound
  noCancel : NoCancel s.outbound.log
  pieces : s.pieces = []
  agreed : ∃ draws, Agreed s.outbound draws ∧ dataOf s.outbound.log = frames (draws 0).1
  whole : ∀ f seq w, .sent f seq w ∈ s.outbound.log → f.isData → w = true
  progress : s.progress = amounts

def AllSent (s : Send) : Prop :=
  (∃ files draws done, s.payload = .files files ∧
    Going s.outbound s.progress files draws done none [] ∧ s.pieces = done.map Prod.snd) ∨
  ∃ t, Texting s t (textFrames · t) [(utf8 t).length]

/-- What is known of the files, at the head of the loop over them. -/
def Opening (s : Send) (rest : List (ℤ × OutgoingFile)) : Prop :=
  ∃ files draws done more, s.payload = .files files ∧
    Going s.outbound s.progress files draws done none more ∧
    rest = more.map (fun p => (p.1.payloadId, p.2)) ∧ s.pieces = done.map Prod.snd

/-- The send is over, or about to be, and the receiver was not told so yet. -/
structure Open (s : Send) : Prop extends Kept s where
  noCancel : NoCancel s.outbound.log

def Fit (s : Send) : Phase → Prop
  | .connecting | .requesting | .starting | .handshake => Before s
  | .consent => Asking s
  | .opening id file rest => Opening s ((id, file) :: rest)
  | .sending c | .polling c _ | .reading c => Sending s c []
  | .closing c => Sending s c [] ∧ c.remaining = 0
  | .writing c body => Sending s c [body] ∧ body.length ≤ c.remaining
  | .looking _ _ => Open s ∧ s.outbound.state.late
  | .texting t => Texting s t (fun _ => []) []
  | .finishing | .ended (.ok ()) => AllSent s
  | .goodbye _ => Open s
  | .ended (.error .cancelledThere) => Open s ∧ .heard .cancelled ∈ s.outbound.log
  | .ended (.error (.failed _)) =>
  Kept s ∧ ∃ before es, s.outbound.log = before ++ es ∧ NoCancel before ∧
      framesOf es <+: [.sharing .cancel false, .sharing .cancel true, .disconnection]

def Inv (s : Send) : Prop := Fit s s.phase

theorem Sending.open {c : Cursor} {more : List Bytes} (h : Sending s c more) : Open s := by
  obtain ⟨files, draws, done, m, bs, rest, hpayload, hgoing, -, -, -, hpieces, hmore⟩ := h
  exact ⟨hgoing.kept more hpayload hmore (by simpa using hpieces), hgoing.noCancel⟩

theorem Opening.open {rest : List (ℤ × OutgoingFile)} (h : Opening s rest) : Open s := by
  obtain ⟨files, draws, done, more, hpayload, hgoing, -, hpieces⟩ := h
  exact ⟨hgoing.kept [] hpayload (by simp) (by simpa using hpieces), hgoing.noCancel⟩

theorem Before.open (h : Before s) : Open s := ⟨h.kept, h.noCancel⟩

theorem fits_text {id : ℤ} {t : Str} {f : Frame} (h : f ∈ textFrames id t) : Fits f := by
  simp only [textFrames, List.mem_cons, List.not_mem_nil, or_false] at h
  rcases h with rfl | rfl <;> trivial

theorem Texting.open {t : Str} {frames : ℤ → List Frame} {amounts : List ℕ}
    (h : Texting s t frames amounts) (hframes : ∀ id, frames id <+: textFrames id t)
    (hamounts : amounts.sum ≤ wholeBytes s.outbound.log) : Open s := by
  obtain ⟨draws, hagreed, hdata⟩ := h.agreed
  refine ⟨⟨h.wire, h.ordered, Or.inr ⟨draws, hagreed, ?_⟩, ?_, by simp [h.pieces],
    h.progress ▸ hamounts⟩, h.noCancel⟩
  · unfold Carries
    rw [h.payload, hdata]
    exact hframes _
  · rw [hdata]
    exact fun f hf => fits_text ((hframes _).subset hf)

theorem AllSent.open (h : AllSent s) : Open s := by
  rcases h with ⟨files, draws, done, hpayload, hgoing, hpieces⟩ | ⟨t, ht⟩
  · exact Opening.open ⟨files, draws, done, [], hpayload, hgoing, rfl, hpieces⟩
  · refine ht.open (fun _ => List.prefix_rfl) ?_
    obtain ⟨draws, -, hdata⟩ := ht.agreed
    rw [wholeBytes_eq ht.whole, hdata]
    simp [textFrames, bodyLen]

theorem Open.phase (h : Open s) (phase : Phase) (tokenCancelled : Bool) :
    Open { s with phase, tokenCancelled } :=
  ⟨h.toKept.phase phase tokenCancelled, h.noCancel⟩

theorem Open.answers (h : Open s) (ha : Answers s.outbound o) : Open { s with outbound := o } := by
  refine ⟨h.toKept.answers ha, ?_⟩
  obtain ⟨es, hes, -, hno⟩ := ha.log
  exact hes ▸ h.noCancel.append hno

theorem Open.fail (h : Open s) (e : ErrorInfo) : Inv (s.fail e) :=
  h.phase (.goodbye e) s.tokenCancelled

theorem Open.stop (h : Open s) {e : OutboundEvent} (he : .heard e ∈ s.outbound.log) :
    Inv (s.stop (QuickShare.ended e)) := by
  cases e with
  | cancelled => exact ⟨h.phase _ s.tokenCancelled, he⟩
  | introductionSent | accepted | rejected | disconnected => exact h.fail _

section Frames

variable {decode : Bytes → Option (Option Sharing)} {f : Incoming} {io : List Wrote}

theorem answers_processFrame (decode : Bytes → Option (Option Sharing)) (f : Incoming)
    (draws : ℕ → NewId × NewId) (io : List Wrote) (hlate : o.state.late) :
    Answers o (o.processFrame decode f draws io).1 ∧
    (o.processFrame decode f draws io).1.state.late := by
  obtain ⟨o₁, hp, heq⟩ := processFrame_spec o decode f draws io
  have ha := Answers.of_quiet (hp.quiet hlate)
  rw [heq]
  refine ⟨?_, hp.late hlate⟩
  split
  · exact ha.heard _
  · simpa using ha

theorem heard_processFrame (draws : ℕ → NewId × NewId) {e : OutboundEvent}
    (he : (o.processFrame decode f draws io).2 = .ok (some e)) :
    .heard e ∈ (o.processFrame decode f draws io).1.log := by
  obtain ⟨o₁, -, heq⟩ := processFrame_spec o decode f draws io
  rw [heq, he]
  simp

theorem Before.processFrame (h : Before s) (decode : Bytes → Option (Option Sharing)) (f : Incoming)
    (draws : ℕ → NewId × NewId) (io : List Wrote) :
    Before { s with outbound := (s.outbound.processFrame decode f draws io).1 } ∧
      ((s.outbound.processFrame decode f draws io).2 = .ok (some .introductionSent) →
        Asking { s with outbound := (s.outbound.processFrame decode f draws io).1 }) := by
  obtain ⟨o₁, hp, heq⟩ := processFrame_spec s.outbound decode f draws io
  obtain ⟨es, hes, hans⟩ := hp.log
  obtain ⟨hdata, hno⟩ := quiet_entries hans
  have hbefore : Before { s with outbound := o₁ } :=
    h.grow ⟨es, hes, hdata, hno⟩ hp.payload hp.ordered
  rw [heq]
  have hheard (e : OutboundEvent) :
      Before { s with outbound := { o₁ with log := o₁.log ++ [.heard e] } } := by
    refine hbefore.grow ⟨[.heard e], rfl, dataOf_heard e, noCancel_heard e⟩ rfl fun ho => ?_
    have hseqs : seqs (o₁.log ++ [.heard e]) = seqs o₁.log := by simp [seqs]
    exact ⟨by rw [hseqs]; exact ho.increasing, by rw [hseqs]; exact ho.le⟩
  constructor
  · split
    · exact hheard _
    · simpa using hbefore
  · intro hr
    obtain ⟨hintro, hlate⟩ := hp.introduced hr
    rw [hr]
    exact ⟨hheard _, introduced_grow hintro rfl rfl rfl rfl rfl, hlate⟩

theorem inv_nextFile {rest : List (ℤ × OutgoingFile)} (h : Opening s rest) :
    Inv { s with phase := nextFile rest } := by
  cases rest with
  | nil =>
    obtain ⟨files, draws, done, more, hpayload, hgoing, hmore, hpieces⟩ := h
    obtain rfl := List.map_eq_nil_iff.mp hmore.symm
    exact Or.inl ⟨files, draws, done, hpayload, hgoing, hpieces⟩
  | cons p rest => exact h

theorem inv_begin (h : Asking s) (hyes : .heard .accepted ∈ s.outbound.log) : Inv s.begin := by
  unfold Send.begin
  split
  · next files hpayload =>
    split
    · exact h.toBefore.open.fail _
    · obtain ⟨draws, hgoing, hids⟩ := going_begin h hyes hpayload
      refine inv_nextFile ⟨files, draws, [], (metadata files draws).zip files, hpayload,
        hgoing, ?_, h.pieces⟩
      rw [hids, List.zip_map_left]
      rfl
  · next t hpayload =>
    obtain ⟨draws, hagreed, -⟩ := h.agreed hyes
    refine ⟨hpayload, h.payload, h.ordered, h.noCancel, h.pieces, ⟨draws, hagreed, h.data⟩,
      ?_, h.progress⟩
    intro f seq w hmem hf
    simpa [h.data] using mem_dataOf hmem hf

theorem inv_onEvent {next : Option OutboundEvent → Option Send}
    {r : Except Broke (Option OutboundEvent)} (h : Open t)
    (hheard : ∀ e, r = .ok (some e) → .heard e ∈ t.outbound.log) (hnone : Inv ((next none).getD t))
    (hsome : ∀ e u, r = .ok (some e) → next (some e) = some u → Inv u) :
    Inv (t.onEvent next r) := by
  rcases r with b | _ | e
  · exact h.fail _
  · exact hnone
  · simp only [onEvent]
    cases hn : next (some e) with
    | none => exact h.stop (hheard e rfl)
    | some u => exact hsome e u rfl hn

theorem Sending.answers {c : Cursor} {more : List Bytes} (h : Sending s c more)
    (ha : Answers s.outbound o) (hlate : o.state.late) :
    Sending { s with outbound := o } c more := by
  obtain ⟨files, draws, done, m, bs, rest, hpayload, hgoing, hrest⟩ := h
  exact ⟨files, draws, done, m, bs, rest, hpayload, hgoing.answers ha hlate, hrest⟩

theorem Sending.late {c : Cursor} {more : List Bytes} (h : Sending s c more) :
    s.outbound.state.late := by
  obtain ⟨files, draws, done, m, bs, rest, -, hgoing, -⟩ := h
  exact hgoing.late

theorem inv_polled {c : Cursor} (h : Sending s c []) (left : ℕ) : Inv (s.polled c left) := by
  cases left <;> exact h

theorem inv_looked (h : Open s) (hlate : s.outbound.state.late) (e : ErrorInfo) (left : ℕ) :
    Inv (s.looked e left) := by
  cases left with
  | zero => exact h.fail e
  | succ left => exact ⟨h.phase _ s.tokenCancelled, hlate⟩

theorem inv_onFrame (h : Inv s) {draws : ℕ → NewId × NewId}
    (hs : s.onFrame decode f draws io = some t) : Inv t := by
  unfold onFrame at hs
  unfold Inv at h
  have hheard (e : OutboundEvent) (he : (s.outbound.processFrame decode f draws io).2 =
      .ok (some e)) : .heard e ∈ (s.outbound.processFrame decode f draws io).1.log :=
      heard_processFrame draws he
  dsimp only at hs
  split at hs
  · next hphase =>
    rw [hphase] at h
    obtain ⟨hbefore, hasking⟩ := h.processFrame decode f draws io
    obtain rfl := Option.some.inj hs
    refine inv_onEvent hbefore.open hheard ?_ ?_
    · exact hphase ▸ hbefore
    · rintro e u he hu
      cases e with
      | introductionSent =>
        obtain rfl := Option.some.inj hu
        exact (hasking he).phase _ s.tokenCancelled
      | _ => cases hu
  · next hphase =>
    rw [hphase] at h
    obtain ⟨ha, hlate⟩ := answers_processFrame decode f draws io h.late
    have hasking := h.answers ha hlate
    obtain rfl := Option.some.inj hs
    refine inv_onEvent hasking.toBefore.open hheard ?_ ?_
    · exact hphase ▸ hasking
    · rintro e u he hu
      cases e with
      | introductionSent =>
        obtain rfl := Option.some.inj hu
        exact hphase ▸ hasking
      | accepted =>
        obtain rfl := Option.some.inj hu
        exact inv_begin hasking (hheard _ he)
      | _ => cases hu
  · next c left hphase =>
    rw [hphase] at h
    obtain ⟨ha, hlate⟩ := answers_processFrame decode f draws io h.late
    have hsending := h.answers ha hlate
    obtain rfl := Option.some.inj hs
    refine inv_onEvent hsending.open hheard (inv_polled hsending left) ?_
    rintro e u - hu
    cases e with
    | introductionSent | accepted =>
      obtain rfl := Option.some.inj hu
      exact inv_polled hsending left
    | _ => cases hu
  · next e left hphase =>
    rw [hphase] at h
    obtain ⟨ha, hlate⟩ := answers_processFrame decode f draws io h.2
    have hopen := h.1.answers ha
    obtain rfl := Option.some.inj hs
    refine inv_onEvent hopen hheard (inv_looked hopen hlate e left) ?_
    rintro e' u - hu
    cases e' with
    | introductionSent | accepted =>
      obtain rfl := Option.some.inj hu
      exact inv_looked hopen hlate e left
    | _ => cases hu
  · cases hs

end Frames

/-- A frame of the file at hand that is torn: it is still the next one of what is read. -/
theorem Going.torn (h : Going s.outbound s.progress files draws done (some d) rest) {frame : Frame}
    {bs : List Bytes} (hpayload : s.payload = .files files)
    (hpieces : s.pieces = done.map Prod.snd ++ [bs])
    (hbs : ∀ b ∈ bs, 0 < b.length ∧ b.length ≤ ioChunkBytes) (hf : frame.isData)
    (hfits : Fits frame) (hnext : chunkFrames (metadata files draws) d.id 0 0 d.2 ++ [frame] <+:
      fileFrames (metadata files draws) d.id bs) :
    Open { s with outbound := s.outbound.put frame false } := by
  have hwhole : wholeBytes (s.outbound.put frame false).log = wholeBytes s.outbound.log := by
    rw [put, wholeBytes_append]
    cases frame <;> rfl
  have hsplit : (metadata files draws).zip files = (done ++ [(d.1, bs)]).map Prod.fst ++ rest := by
    simpa using h.split
  constructor
  · constructor
    · exact hpayload ▸ h.wire
    · exact h.ordered.put _ _
    · refine Or.inr ⟨draws, agreed_put h.agreed, carries_of done (d.1, bs) hpayload hsplit ?_ ?_ ?_⟩
      · exact fun e he => (h.exact e he).1
      · simpa using hpieces
      · rw [show dataOf _ = _ from dataOf_put hf, h.data, List.append_assoc, List.map_append,
          List.flatten_append]
        refine (List.prefix_append_right_inj _).mpr ?_
        simp only [List.map_cons, List.map_nil, List.flatten_cons, List.flatten_nil,
          List.append_nil]
        exact hnext
    · exact fits_put h.fits hfits
    · intro bs' hbs' b hb
      rw [hpieces] at hbs'
      rcases List.mem_append.mp hbs' with hbs' | hbs'
      · obtain ⟨e, he, rfl⟩ := List.mem_map.mp hbs'
        exact h.bounds e (by simp [he]) b hb
      · rw [List.mem_singleton.mp hbs'] at hb
        exact hbs b hb
    · exact (h.reported.trans hwhole.symm).le
  · exact noCancel_put h.noCancel hf

theorem Open.serverSeq (h : Open s) {n : ℤ} (hn : s.outbound.serverSeq ≤ n) :
    Open { s with outbound := { s.outbound with serverSeq := n } } := by
  refine ⟨h.toKept.grow ⟨[], by simp, rfl⟩ rfl rfl rfl fun ho => ?_, h.noCancel⟩
  exact ⟨ho.increasing, fun m hm => (ho.le m hm).trans hn⟩

/-! ## Every run -/

theorem Texting.cancel {t : Str} {frames : ℤ → List Frame} {amounts : List ℕ}
    (h : Texting s t frames amounts) : Texting { s with tokenCancelled := true } t frames amounts :=
  ⟨h.payload, h.wire, h.ordered, h.noCancel, h.pieces, h.agreed, h.whole, h.progress⟩

theorem AllSent.cancel (h : AllSent s) : AllSent { s with tokenCancelled := true } := by
  rcases h with h | ⟨t, ht⟩
  · exact Or.inl h
  · exact Or.inr ⟨t, ht.cancel⟩

/-- Whether the user cancels does not matter to what is on the wire. -/
theorem Fit.cancel {phase : Phase} (h : Fit s phase) :
    Fit { s with tokenCancelled := true } phase := by
  cases phase with
  | connecting | requesting | starting | handshake => exact Before.phase h s.phase true
  | consent => exact Asking.phase h s.phase true
  | opening | sending | polling | reading | closing | writing => exact h
  | looking => exact ⟨h.1.phase s.phase true, h.2⟩
  | texting => exact Texting.cancel h
  | goodbye => exact Open.phase h s.phase true
  | finishing => exact AllSent.cancel h
  | ended r =>
    rcases r with (_ | e) | u
    · exact ⟨h.1.phase s.phase true, h.2⟩
    · exact ⟨h.1.phase s.phase true, h.2⟩
    · exact AllSent.cancel h

theorem inv_settle {next : Send → Send} {x : Outbound × Except Broke Unit}
    (herr : ∀ b, x.2 = .error b → Open { s with outbound := x.1 })
    (hok : x.2 = .ok () → Inv (next { s with outbound := x.1 })) : Inv (s.settle next x) := by
  obtain ⟨o₁, b | u⟩ := x
  · exact (herr b rfl).fail _
  · exact hok rfl

theorem inv_opened {id : ℤ} {file : OutgoingFile} {rest : List (ℤ × OutgoingFile)}
    (h : Opening s ((id, file) :: rest)) (found : Option Metadata) :
    Inv (s.opened id file rest found) := by
  unfold Send.opened
  split
  · exact h.open.fail _
  split
  · exact h.open.fail _
  · obtain ⟨files, draws, done, more, hpayload, hgoing, hmore, hpieces⟩ := h
    obtain ⟨⟨m, f⟩, more', rfl, hhead, hrest⟩ := List.map_eq_cons_iff.mp hmore.symm
    obtain ⟨rfl, rfl⟩ := Prod.mk.inj hhead
    refine ⟨files, draws, done, m, [], more', hpayload, hgoing.open, rfl,
      hrest.symm, by simp, ?_, by simp⟩
    simp [hpieces]

theorem inv_onRead {c : Cursor} {bytes : Option Bytes} (h : Sending s c [])
    (hs : s.onRead c bytes = some t) : Inv t := by
  unfold onRead at hs
  split at hs
  · obtain rfl := Option.some.inj hs
    exact h.open.fail _
  · obtain rfl := Option.some.inj hs
    exact h.open.fail _
  · next body hne =>
    obtain ⟨hle, hs⟩ := Option.ite_none_right_eq_some.mp hs
    obtain rfl := Option.some.inj hs
    have hpos : 0 < body.length := List.length_pos_iff.mpr fun hnil => hne (by rw [hnil])
    obtain ⟨files, draws, done, m, bs, rest, hpayload, hgoing, hid, hrest, hsize, hpieces, -⟩ := h
    refine ⟨⟨files, draws, done, m, bs, rest, hpayload, hgoing, hid, hrest, hsize, ?_, ?_⟩, ?_⟩
    · simp [addPiece, hpieces]
    · simpa using ⟨hpos, (Nat.le_min.mp hle).2⟩
    · exact (Nat.le_min.mp hle).1

theorem inv_wroteChunk {c : Cursor} (h : Sending s c [body])
    (hle : body.length ≤ c.remaining) (w : Wrote) : Inv (s.wroteChunk c body w) := by
  have hopen := h.open
  obtain ⟨files, draws, done, m, bs, rest, hpayload, hgoing, hid, hrest, hsize, hpieces, hbody⟩ := h
  unfold wroteChunk
  rcases sendFileChunk_cases s.outbound c.id body w with heq | ⟨info, hinfo, hfits, hsent⟩
  · rw [heq]
    exact ⟨hopen.phase _ s.tokenCancelled, hgoing.late⟩
  generalize s.outbound.sendFileChunk c.id body w = x at hsent ⊢
  rw [hid] at hinfo hsent
  cases hsent with
  | sent =>
    refine ⟨files, draws, done, m, bs ++ [body], rest, hpayload, ?_, hid, hrest, ?_, ?_, by simp⟩
    · exact hgoing.chunk hinfo hfits (hbody body (by simp))
    · simp only [List.flatten_append, List.flatten_cons, List.flatten_nil, List.append_nil,
        List.length_append]
      omega
    · simpa using hpieces
  | torn e =>
    have hbs : ∀ b ∈ bs ++ [body], 0 < b.length ∧ b.length ≤ ioChunkBytes := by
      intro b hb
      rcases List.mem_append.mp hb with hb | hb
      · exact hgoing.bounds ((m, c.file), bs) (by simp) b hb
      · exact hbody b hb
    have hframes : chunkFrames (metadata files draws) m.payloadId 0 0 (bs ++ [body]) =
        chunkFrames (metadata files draws) m.payloadId 0 0 bs ++
        [chunkFrame s.outbound m.payloadId info body] :=
      hgoing.chunkFrame_eq hinfo
    have htorn :
        Open { s with
          outbound := s.outbound.put (chunkFrame s.outbound m.payloadId info body) false } :=
      hgoing.torn hpayload hpieces hbs rfl hfits (hframes ▸ List.prefix_append ..)
    exact ⟨htorn.phase _ s.tokenCancelled, hgoing.late⟩
  | not n hn => exact ⟨(hopen.serverSeq hn).phase _ s.tokenCancelled, hgoing.late⟩

theorem inv_closing {c : Cursor} (h : Sending s c []) (hzero : c.remaining = 0) (w : Wrote) :
    Inv (s.settle (fun s => { s with phase := nextFile c.rest })
      (s.outbound.finishFile c.id w)) := by
  have hopen := h.open
  obtain ⟨files, draws, done, m, bs, rest, hpayload, hgoing, hid, hrest, hsize, hpieces, -⟩ := h
  rw [hzero, Nat.add_zero] at hsize
  rw [List.append_nil] at hpieces
  rcases finishFile_cases s.outbound c.id w with heq | ⟨info, hinfo, hend, hsent⟩
  · rw [heq]
    exact hopen.fail _
  rw [hid] at hinfo hsent
  rw [hid]
  generalize s.outbound.finishFile m.payloadId w = x at hsent ⊢
  cases hsent with
  | sent =>
    refine inv_nextFile ⟨files, draws, done ++ [((m, c.file), bs)], rest, hpayload, ?_, hrest, ?_⟩
    · exact hgoing.close hinfo hend hsize
    · simpa using hpieces
  | torn e =>
    have hbs : ∀ b ∈ bs, 0 < b.length ∧ b.length ≤ ioChunkBytes :=
      hgoing.bounds ((m, c.file), bs) (by simp)
    refine Open.fail (hgoing.torn hpayload hpieces hbs rfl (by simp [closeFrame, Fits]) ?_) _
    rw [(hgoing.closeFrame_eq hinfo hend).2]
    exact List.prefix_rfl
  | not n hn => exact (hopen.serverSeq hn).fail _

theorem textId_eq (h : Agreed o draws) {t : OutgoingText} (hpayload : o.payload = .text t) :
    o.textId = some ((draws 0).1 : ℤ) := by
  rw [h.textId, introduce, hpayload]

theorem inv_texting {t : Str} (h : Texting s t (fun _ => []) []) (io : List Wrote) :
    Inv
    (s.settle (fun s => { s with phase := .finishing, progress := s.progress ++ [(utf8 t).length] })
      (s.outbound.sendText io)) := by
  obtain ⟨draws, hagreed, hdata⟩ := h.agreed
  have hpayload : s.outbound.payload = (SendPayload.text t).wire := h.payload ▸ h.wire
  have hsend : s.outbound.sendText io = s.outbound.sendAll (textFrames (draws 0).1 t) io := by
    rw [sendText, textId_eq hagreed hpayload, hpayload]
    rfl
  obtain ⟨gs, hlog, hfst, hok⟩ := sendAll_spec s.outbound (textFrames (draws 0).1 t) io
  have hq := quiet_sendAll s.outbound (textFrames (draws 0).1 t) io fun _ hf => hf
  rw [hsend]
  generalize s.outbound.sendAll (textFrames (draws 0).1 t) io = x at hlog hok hq ⊢
  have hframes : ∀ g ∈ gs, g.1.isData = true ∧ isCancel g.1 = false := by
    intro g hg
    have hmem := hfst.subset (List.mem_map_of_mem hg)
    simp only [textFrames, List.mem_cons, List.not_mem_nil, or_false] at hmem
    rcases hmem with hmem | hmem <;> rw [hmem] <;> exact ⟨rfl, rfl⟩
  have hsent : dataOf x.1.log = gs.map Prod.fst := by
    rw [hlog, dataOf_append, hdata, List.nil_append, dataOf, List.filterMap_map,
      ← List.filterMap_eq_map]
    refine List.filterMap_congr fun g hg => ?_
    simp [(hframes g hg).1]
  have hno : NoCancel x.1.log := by
    rw [hlog]
    refine h.noCancel.append fun f hf => ?_
    obtain ⟨e, he, hef⟩ := List.mem_filterMap.mp hf
    obtain ⟨g, hg, rfl⟩ := List.mem_map.mp he
    exact Option.some.inj hef ▸ (hframes g hg).2
  have hagreed' : Agreed x.1 draws := hagreed.grow ⟨_, hlog⟩ hq.payload hq.fileIds hq.textId
  have hwire : x.1.payload = s.payload.wire := hq.payload.trans h.wire
  refine inv_settle (fun b hb => ?_) fun hr => ?_
  · refine ⟨⟨hwire, hq.ordered h.ordered, Or.inr ⟨draws, hagreed', ?_⟩,
      ?_, by simp [h.pieces], by simp [h.progress]⟩, hno⟩
    · simp only [Carries, h.payload, hsent]
      exact hfst
    · rw [hsent]
      exact fun f hf => fits_text (hfst.subset hf)
  · obtain ⟨hall, hwhole⟩ := hok hr
    refine Or.inr ⟨t, h.payload, hwire, hq.ordered h.ordered, hno, h.pieces,
      ⟨draws, hagreed', ?_⟩, ?_, ?_⟩
    · exact hsent.trans hall
    · intro f seq w hmem hf
      have hmem' : .sent f seq w ∈ x.1.log := hmem
      rw [hlog] at hmem'
      rcases List.mem_append.mp hmem' with hmem' | hmem'
      · exact h.whole f seq w hmem' hf
      · obtain ⟨g, hg, heq⟩ := List.mem_map.mp hmem'
        obtain ⟨-, -, rfl⟩ := Entry.sent.inj heq
        exact hwhole g hg
    · simp [h.progress]

theorem AllSent.answers (h : AllSent s) (ha : Answers s.outbound o) (hlate : o.state.late)
    (phase : Phase) : AllSent { s with outbound := o, phase } := by
  rcases h with ⟨files, draws, done, hpayload, hgoing, hpieces⟩ | ⟨t, ht⟩
  · exact Or.inl ⟨files, draws, done, hpayload, hgoing.answers ha hlate, hpieces⟩
  · obtain ⟨es, hes, hdata, hno⟩ := ha.log
    obtain ⟨draws, hagreed, hsent⟩ := ht.agreed
    refine Or.inr ⟨t, ht.payload, ha.payload.trans ht.wire, ha.ordered ht.ordered,
      hes ▸ ht.noCancel.append hno, ht.pieces,
      ⟨draws, hagreed.grow ⟨es, hes⟩ ha.payload ha.fileIds ha.textId, ?_⟩, ?_, ht.progress⟩
    · exact (dataOf_grow hes hdata).trans hsent
    · intro f seq w hmem hf
      have hmem' : .sent f seq w ∈ o.log := hmem
      rw [hes] at hmem'
      rcases List.mem_append.mp hmem' with hmem' | hmem'
      · exact ht.whole f seq w hmem' hf
      · simpa [hdata] using mem_dataOf hmem' hf

theorem inv_finishing (h : AllSent s) (l : Linger) :
    Inv (s.settle (fun s => { s with phase := .ended (.ok ()) }) (s.outbound.finish l)) := by
  have ha := Answers.of_quiet (quiet_finish (o := s.outbound) l)
  refine inv_settle (fun b _ => h.open.answers ha) fun hr => ?_
  exact h.answers ha (by rw [state_finish hr]; rfl) _

theorem inv_goodbye (h : Open s) (e : ErrorInfo) (io : List Wrote) :
    Inv { s with
      outbound := (s.outbound.cancelTransfer io).1, phase := .ended (.error (.failed e)) } := by
  have hq := quiet_cancelTransfer (o := s.outbound) io
  obtain ⟨es, hes, hcancel⟩ := cancelTransfer_log s.outbound io
  refine ⟨Kept.phase (h.toKept.grow ?_ hq.payload hq.fileIds hq.textId hq.ordered) _
    s.tokenCancelled, s.outbound.log, es, hes, h.noCancel, hcancel⟩
  refine ⟨es, hes, List.filterMap_eq_nil_iff.mpr fun e' he => ?_⟩
  rcases e' with ⟨f, seq, w⟩ | e'
  · have hmem : f ∈ framesOf es := List.mem_filterMap.mpr ⟨_, he, rfl⟩
    have hf := hcancel.subset hmem
    simp only [List.mem_cons, List.not_mem_nil, or_false] at hf
    rcases hf with rfl | rfl | rfl <;> rfl
  · rfl

theorem quiet_sendUkey2ClientInit (w : Wrote) :
    Quiet (·.answers) o (o.sendUkey2ClientInit w).1 := by
  have hq := quiet_write (P := (·.answers)) (o := o) (f := .ukey2ClientInit) (w := w) rfl
  unfold sendUkey2ClientInit
  generalize o.write .ukey2ClientInit none w = x at hq ⊢
  obtain ⟨o₁, b | u⟩ := x
  · exact hq
  · exact hq.fields

theorem Before.settle (h : Before s) {x : Outbound × Except Broke Unit}
    (hq : Quiet (·.answers) s.outbound x.1) {phase : Phase} (hphase : ∀ u, Before u → Fit u phase) :
    Inv (s.settle (fun s => { s with phase }) x) := by
  have ha := Answers.of_quiet hq
  have hbefore : Before { s with outbound := x.1 } := h.grow ha.log ha.payload ha.ordered
  exact inv_settle (fun b _ => hbefore.open) fun _ =>
    hphase _ (hbefore.phase phase s.tokenCancelled)

theorem Before.unconnected (h : Before s) (e : ErrorInfo) :
    Inv { s with phase := .ended (.error (.failed e)) } := by
  refine ⟨h.kept.phase _ s.tokenCancelled, s.outbound.log, [], by simp, h.noCancel, ?_⟩
  exact List.nil_prefix

theorem inv_check {c : Cursor} (h : Sending s c [])
    (hs : (if c.remaining = 0 then some { s with phase := .closing c }
      else if s.tokenCancelled then some (s.fail LocalSend.cancelled)
      else some { s with phase := .polling c maxFramesPerPoll }) = some t) : Inv t := by
  split_ifs at hs with hzero hcancelled
  · obtain rfl := Option.some.inj hs
    exact ⟨h, hzero⟩
  · obtain rfl := Option.some.inj hs
    exact h.open.fail _
  · obtain rfl := Option.some.inj hs
    exact h

theorem Open.cancelled (h : Open s)
    (hs : (if s.tokenCancelled then some (s.fail LocalSend.cancelled) else none) = some t) :
    Inv t := by
  obtain ⟨-, hs⟩ := Option.ite_none_right_eq_some.mp hs
  obtain rfl := Option.some.inj hs
  exact h.fail _

theorem Inv.step {decode : Bytes → Option (Option Sharing)} {a : Act} (h : Inv s)
    (hs : step decode s a = some t) : Inv t := by
  unfold Send.step at hs
  split at hs
  · exact Option.some.inj hs ▸ Fit.cancel h
  · next hphase =>
    rw [Inv, hphase] at h
    obtain ⟨-, hs⟩ := Option.ite_none_right_eq_some.mp hs
    obtain rfl := Option.some.inj hs
    exact Before.unconnected h _
  · next hphase =>
    rw [Inv, hphase] at h
    obtain rfl := Option.some.inj hs
    exact Before.phase h _ s.tokenCancelled
  · next hphase =>
    rw [Inv, hphase] at h
    obtain rfl := Option.some.inj hs
    exact Before.unconnected h _
  · next hphase =>
    rw [Inv, hphase] at h
    obtain rfl := Option.some.inj hs
    exact Before.settle h (quiet_write rfl) fun _ hu => hu
  · next hphase =>
    rw [Inv, hphase] at h
    obtain rfl := Option.some.inj hs
    exact Before.settle h (quiet_sendUkey2ClientInit _) fun _ hu => hu
  · next hphase =>
    rw [Inv, hphase] at h
    exact (Before.open h).cancelled hs
  · next hphase =>
    rw [Inv, hphase] at h
    exact (Before.open h.toBefore).cancelled hs
  · next hphase =>
    rw [Inv, hphase] at h
    obtain rfl := Option.some.inj hs
    exact (Before.open h).fail _
  · next hphase =>
    rw [Inv, hphase] at h
    obtain rfl := Option.some.inj hs
    exact (Before.open h.toBefore).fail _
  · next hphase =>
    rw [Inv, hphase] at h
    obtain rfl := Option.some.inj hs
    exact (Before.open h).fail _
  · next hphase =>
    rw [Inv, hphase] at h
    obtain rfl := Option.some.inj hs
    exact (Before.open h.toBefore).fail _
  · exact inv_onFrame h hs
  · next hphase =>
    rw [Inv, hphase] at h
    obtain rfl := Option.some.inj hs
    exact inv_opened h _
  · next hphase =>
    rw [Inv, hphase] at h
    exact inv_check h hs
  · next hphase =>
    rw [Inv, hphase] at h
    obtain rfl := Option.some.inj hs
    exact h
  · next hphase =>
    rw [Inv, hphase] at h
    obtain rfl := Option.some.inj hs
    exact (Sending.open h).fail _
  · next hphase =>
    rw [Inv, hphase] at h
    obtain rfl := Option.some.inj hs
    exact h.1.fail _
  · next hphase =>
    rw [Inv, hphase] at h
    exact inv_onRead h hs
  · next hphase =>
    rw [Inv, hphase] at h
    obtain rfl := Option.some.inj hs
    exact inv_wroteChunk h.1 h.2 _
  · next hphase =>
    rw [Inv, hphase] at h
    obtain rfl := Option.some.inj hs
    exact h.1.fail _
  · next hphase =>
    rw [Inv, hphase] at h
    obtain rfl := Option.some.inj hs
    exact inv_closing h.1 h.2 _
  · next hphase =>
    rw [Inv, hphase] at h
    obtain rfl := Option.some.inj hs
    exact inv_texting h _
  · next hphase =>
    rw [Inv, hphase] at h
    obtain rfl := Option.some.inj hs
    exact inv_finishing h _
  · next hphase =>
    rw [Inv, hphase] at h
    obtain rfl := Option.some.inj hs
    exact inv_goodbye h _ _
  · cases hs

theorem inv_start (payload : SendPayload) : Inv (start payload) := by
  refine ⟨rfl, ⟨by simp [start, Outbound.new, seqs], by simp [start, Outbound.new, seqs]⟩, ?_,
    rfl, rfl, rfl⟩
  intro f hf
  simp [start, Outbound.new, framesOf] at hf

theorem inv_run {decode : Bytes → Option (Option Sharing)} {payload : SendPayload} {acts : List Act}
    (h : exec (step decode) (start payload) acts = some s) : Inv s :=
  exec_invariant (fun _ _ _ hi hs => hi.step hs) (inv_start payload) h

theorem Inv.kept (h : Inv s) : Kept s := by
  unfold Inv at h
  generalize s.phase = phase at h
  cases phase with
  | connecting | requesting | starting | handshake => exact Before.kept h
  | consent => exact h.toBefore.kept
  | opening => exact (Opening.open h).toKept
  | sending | polling | reading => exact (Sending.open h).toKept
  | closing | writing => exact (Sending.open h.1).toKept
  | looking => exact h.1.toKept
  | texting => exact (Texting.open h (fun _ => List.nil_prefix) (Nat.zero_le _)).toKept
  | finishing => exact (AllSent.open h).toKept
  | goodbye => exact h.toKept
  | ended r =>
    rcases r with (_ | e) | u
    · exact h.1.toKept
    · exact h.1
    · exact (AllSent.open h).toKept

/-- Nothing takes the offer back but the goodbye of a send that failed. -/
theorem Inv.noCancel (h : Inv s) (hne : ∀ e, s.phase ≠ .ended (.error (.failed e))) :
    NoCancel s.outbound.log := by
  unfold Inv at h
  generalize s.phase = phase at h hne
  cases phase with
  | connecting | requesting | starting | handshake => exact Before.noCancel h
  | consent => exact h.toBefore.noCancel
  | opening => exact (Opening.open h).noCancel
  | sending | polling | reading => exact (Sending.open h).noCancel
  | closing | writing => exact (Sending.open h.1).noCancel
  | looking => exact h.1.noCancel
  | texting => exact Texting.noCancel h
  | finishing => exact (AllSent.open h).noCancel
  | goodbye => exact h.noCancel
  | ended r =>
    rcases r with (_ | e) | u
    · exact h.1.noCancel
    · exact absurd rfl (hne e)
    · exact (AllSent.open h).noCancel

/-! ## What the receiver makes of the frames -/

def chunkOf : Frame → Option FileChunk
  | .file id _ _ _ flags _ body => some ⟨id, body, flags % 2 = 1⟩
  | _ => none

theorem chunkOf_chunkFrames (ms : List FileMetadata) (id offset index : ℤ) (bs : List Bytes) :
    (chunkFrames ms id offset index bs).filterMap chunkOf = bs.map (⟨id, ·, false⟩) := by
  induction bs generalizing offset index with
  | nil => rfl
  | cons b bs ih => simp [chunkFrames, chunkOf, ih]

theorem chunkOf_fileFrames {bs : List Bytes} {id : ℤ}
    (h : (bs.flatten.length : ℤ) = totalOf ms id) :
    (fileFrames ms id bs).filterMap chunkOf = bs.map (⟨id, ·, false⟩) ++ [⟨id, [], true⟩] := by
  rw [fileFrames, if_pos h, List.filterMap_append, chunkOf_chunkFrames]
  rfl

/-- The content of a file that is sent to its end, among others with other ids, is what was read of
it. -/
theorem content_eq {parts : List Part} (hnodup : (parts.map Part.id).Nodup)
    (hexact : ∀ d ∈ parts, (d.len : ℤ) = totalOf ms d.id) (hd : d ∈ parts) :
    Chunks.content d.id ((parts.map fun d => fileFrames ms d.id d.2).flatten.filterMap chunkOf) =
    d.2.flatten := by
  have hof : ∀ ps : List Part, (∀ e ∈ ps, (e.len : ℤ) = totalOf ms e.id) → (∀ e ∈ ps, e.id ≠ d.id) →
      Chunks.of d.id ((ps.map fun d => fileFrames ms d.id d.2).flatten.filterMap chunkOf) = [] := by
    intro ps hps hne
    induction ps with
    | nil => rfl
    | cons e ps ih =>
      have he : (e.2.flatten.length : ℤ) = totalOf ms e.id := hps e (by simp)
      rw [List.map_cons, List.flatten_cons, List.filterMap_append, Chunks.of_append,
        ih (fun x hx => hps x (by simp [hx])) (fun x hx => hne x (by simp [hx])),
        chunkOf_fileFrames he]
      simp [Chunks.of, hne e (by simp)]
  obtain ⟨l, r, rfl⟩ := List.append_of_mem hd
  have hself : (d.2.flatten.length : ℤ) = totalOf ms d.id := hexact d (by simp)
  rw [List.map_append, List.map_cons, List.nodup_append, List.nodup_cons] at hnodup
  have hl : ∀ e ∈ l, e.id ≠ d.id := fun e he => hnodup.2.2 _ (List.mem_map_of_mem he) _ (by simp)
  have hr : ∀ e ∈ r, e.id ≠ d.id := fun e he heq => hnodup.2.1.1 (heq ▸ List.mem_map_of_mem he)
  rw [Chunks.content, List.map_append, List.flatten_append, List.filterMap_append, Chunks.of_append,
    hof l (fun e he => hexact e (by simp [he])) hl, List.nil_append, List.map_cons,
    List.flatten_cons,
    List.filterMap_append, Chunks.of_append, hof r (fun e he => hexact e (by simp [he])) hr,
    List.append_nil, chunkOf_fileFrames hself]
  have hkeep : Chunks.of d.id (d.2.map (⟨d.id, ·, false⟩) ++ [⟨d.id, [], true⟩]) =
      d.2.map (⟨d.id, ·, false⟩) ++ [⟨d.id, [], true⟩] := by
    simp [Chunks.of, List.filter_map, Function.comp_def]
  rw [hkeep, Chunks.upToLast_append (by simp) rfl]
  simp [Function.comp_def]

/-! ## The whole send -/

section Payload

theorem payload_onEvent {next : Option OutboundEvent → Option Send}
    {r : Except Broke (Option OutboundEvent)} (h : ∀ e u, next e = some u → u.payload = s.payload) :
    (s.onEvent next r).payload = s.payload := by
  have hget (e : Option OutboundEvent) (u : Send) (hu : u.payload = s.payload) :
      ((next e).getD u).payload = s.payload := by
    cases hn : next e with
    | none => exact hu
    | some v => exact h e v hn
  rcases r with b | _ | e
  · rfl
  · exact hget none s rfl
  · refine hget (some e) _ ?_
    cases e <;> rfl

theorem payload_begin : s.begin.payload = s.payload := by
  unfold Send.begin
  split
  · split <;> rfl
  · rfl

theorem payload_onFrame {decode : Bytes → Option (Option Sharing)} {f : Incoming} {io : List Wrote}
    (hs : s.onFrame decode f draws io = some t) : t.payload = s.payload := by
  unfold onFrame at hs
  dsimp only at hs
  have hpoll {next : Send} (hnext : next.payload = s.payload) (e : Option OutboundEvent) (u : Send)
      (hu : duringPoll next e = some u) : u.payload = s.payload := by
    unfold duringPoll at hu
    split at hu
    all_goals first | exact Option.some.inj hu ▸ hnext | cases hu
  split at hs
  · obtain rfl := Option.some.inj hs
    refine payload_onEvent fun e u hu => ?_
    unfold duringHandshake at hu
    split at hu
    all_goals first | exact Option.some.inj hu ▸ rfl | cases hu
  · obtain rfl := Option.some.inj hs
    refine payload_onEvent fun e u hu => ?_
    unfold duringConsent at hu
    split at hu
    all_goals
      first
      | exact Option.some.inj hu ▸ rfl
      | exact Option.some.inj hu ▸ payload_begin
      | cases hu
  · next left _ =>
    obtain rfl := Option.some.inj hs
    exact payload_onEvent (hpoll (by cases left <;> rfl))
  · next left _ =>
    obtain rfl := Option.some.inj hs
    exact payload_onEvent (hpoll (by cases left <;> rfl))
  · cases hs

theorem payload_settle {next : Send → Send} (h : ∀ u, (next u).payload = u.payload)
    (x : Outbound × Except Broke Unit) : (s.settle next x).payload = s.payload := by
  obtain ⟨o₁, b | u⟩ := x
  · rfl
  · exact h _

theorem payload_step {decode : Bytes → Option (Option Sharing)} {a : Act}
    (hs : step decode s a = some t) : t.payload = s.payload := by
  unfold Send.step at hs
  split at hs
  case h_13 => exact payload_onFrame hs
  case h_14 =>
    obtain rfl := Option.some.inj hs
    unfold Send.opened
    split
    · rfl
    · split <;> rfl
  case h_19 =>
    unfold onRead at hs
    split at hs
    · exact Option.some.inj hs ▸ rfl
    · exact Option.some.inj hs ▸ rfl
    · obtain ⟨-, hs⟩ := Option.ite_none_right_eq_some.mp hs
      exact Option.some.inj hs ▸ rfl
  case h_20 =>
    obtain rfl := Option.some.inj hs
    unfold wroteChunk
    split <;> rfl
  case h_5 | h_6 | h_22 | h_23 | h_24 =>
    obtain rfl := Option.some.inj hs
    apply payload_settle
    exact fun _ => rfl
  all_goals first
    | exact Option.some.inj hs ▸ rfl
    | (split_ifs at hs <;> exact Option.some.inj hs ▸ rfl)
    | cases hs

end Payload

structure Delivered (s : Send) (items : List Outgoing) : Prop where
  progress : s.progress.sum = totalSize items
  whole : ∀ f seq w, .sent f seq w ∈ s.outbound.log → f.isData → w = true
  files : ∀ files, s.payload = .files files → ∃ draws, Agreed s.outbound draws ∧
    ((metadata files draws).map (·.payloadId)).Nodup ∧
    dataOf s.outbound.log = plan (metadata files draws) s.pieces ∧ s.pieces.length = files.length ∧
    ∀ (i : ℕ) (m : FileMetadata) (file : OutgoingFile) (bs : List Bytes),
      (metadata files draws)[i]? = some m → files[i]? = some file → s.pieces[i]? = some bs →
      bs.flatten.length = file.size ∧ (file.size : ℤ) = totalOf (metadata files draws) m.payloadId ∧
      Chunks.content m.payloadId ((dataOf s.outbound.log).filterMap chunkOf) = bs.flatten
  text : ∀ t, s.payload = .text t → ∃ draws, Agreed s.outbound draws ∧
    dataOf s.outbound.log = textFrames (draws 0).1 t

theorem totalSize_eq (items : List Outgoing) :
    totalSize items = ((filesOf items).map OutgoingFile.size).sum +
    ((textsOf items).map fun t => (utf8 t).length).sum := by
  induction items with
  | nil => rfl
  | cons item items ih =>
    unfold totalSize filesOf textsOf at ih ⊢
    cases item with
    | file f | text t =>
      simp only [List.map_cons, List.sum_cons, List.filterMap_cons, ih]
      omega

def payloadSize : SendPayload → ℕ
  | .files files => (files.map OutgoingFile.size).sum
  | .text t => (utf8 t).length

theorem totalSize_payload {items : List Outgoing} {payload : SendPayload}
    (h : sendPayload items = .ok payload) : totalSize items = payloadSize payload := by
  rw [totalSize_eq]
  unfold sendPayload at h
  split at h
  · next hfiles htexts =>
    obtain rfl := Except.ok.inj h
    simp [hfiles, htexts, payloadSize]
  · next hfiles htexts =>
    obtain rfl := Except.ok.inj h
    simp [hfiles, htexts, payloadSize]
  · cases h

theorem Going.delivered (h : Going s.outbound s.progress files draws done none [])
    (hpieces : s.pieces = done.map Prod.snd) :
    ((metadata files draws).map (·.payloadId)).Nodup ∧
      dataOf s.outbound.log = plan (metadata files draws) s.pieces ∧ s.pieces.length =
      files.length ∧ s.progress.sum = (files.map OutgoingFile.size).sum ∧
      ∀ (i : ℕ) (m : FileMetadata) (file : OutgoingFile) (bs : List Bytes),
        (metadata files draws)[i]? = some m → files[i]? = some file → s.pieces[i]? = some bs →
        bs.flatten.length = file.size ∧ (file.size : ℤ) =
        totalOf (metadata files draws) m.payloadId ∧
        Chunks.content m.payloadId ((dataOf s.outbound.log).filterMap chunkOf) = bs.flatten := by
  have hsplit : (metadata files draws).zip files = done.map Prod.fst ++ [] := by simpa using h.split
  obtain ⟨hms, hfiles⟩ := zip_split hsplit
  simp only [List.map_nil, List.append_nil] at hms hfiles
  have hdata : dataOf s.outbound.log =
      (done.map fun d => fileFrames (metadata files draws) d.id d.2).flatten := by
    simpa using h.data
  have hids : (metadata files draws).map (·.payloadId) = done.map Part.id := by
    rw [hms, List.map_map]
    rfl
  refine ⟨hids ▸ h.nodup, ?_, ?_, ?_, ?_⟩
  · rw [hpieces, plan_eq hsplit, hdata]
  · rw [hpieces, hfiles, List.length_map, List.length_map]
  · have hsizes : done.map Part.len = files.map OutgoingFile.size := by
      rw [hfiles, List.map_map]
      exact List.map_congr_left fun d hd => (h.exact d hd).1
    have hbytes : s.progress.sum = (done.map Part.len).sum := by simpa using h.bytes
    rw [hbytes, hsizes]
  · intro i m file bs hm hfile hbs
    rw [hms, List.getElem?_map] at hm
    rw [hfiles, List.getElem?_map] at hfile
    rw [hpieces, List.getElem?_map] at hbs
    obtain ⟨d, hd, rfl⟩ := Option.map_eq_some_iff.mp hm
    rw [hd] at hfile hbs
    obtain rfl := Option.some.inj hfile
    obtain rfl := Option.some.inj hbs
    have hmem := List.mem_of_getElem? hd
    obtain ⟨hsize, htotal⟩ := h.exact d hmem
    refine ⟨hsize, by rw [← hsize]; exact htotal, ?_⟩
    rw [hdata]
    exact content_eq h.nodup (fun e he => (h.exact e he).2) hmem

theorem delivered_of {items : List Outgoing} (h : AllSent s)
    (hitems : sendPayload items = .ok s.payload) : Delivered s items := by
  have htotal := totalSize_payload hitems
  rcases h with ⟨files, draws, done, hpayload, hgoing, hpieces⟩ | ⟨t, ht⟩
  · rw [hpayload] at htotal
    obtain ⟨hnodup, hdata, hlen, hsum, hcontent⟩ := hgoing.delivered hpieces
    constructor
    · exact hsum.trans htotal.symm
    · exact hgoing.whole
    · rintro files' hpayload'
      obtain rfl := SendPayload.files.inj (hpayload.symm.trans hpayload')
      exact ⟨draws, hgoing.agreed, hnodup, hdata, hlen, hcontent⟩
    · intro t ht
      rw [hpayload] at ht
      cases ht
  · rw [ht.payload] at htotal
    constructor
    · rw [htotal, ht.progress]
      simp [payloadSize]
    · exact ht.whole
    · intro files hfiles
      rw [ht.payload] at hfiles
      cases hfiles
    · rintro t' ht'
      obtain rfl := SendPayload.text.inj (ht.payload.symm.trans ht')
      exact ht.agreed

theorem payload_run {decode : Bytes → Option (Option Sharing)} {payload : SendPayload}
    {acts : List Act} (h : exec (step decode) (start payload) acts = some s) :
    s.payload = payload :=
  exec_invariant (I := fun s => s.payload = payload)
    (fun _ _ _ hi hs => (payload_step hs).trans hi) rfl h

/-- In every run of a send, whatever the receiver, the network, the disk and the user do: nothing of
what is sent goes out before the introduction that announces it and the receiver's yes; what goes
out is then, frame by frame, the beginning of the pieces read of the files in their order, each file
begun when the one before it is complete and none sent past its announced size, or of the text;
pieces are small; numbers are never used twice. A send that ends well has sent every file to its
size and the text whole, reported all of it, and the receiver's view of each payload is what was
read. Only a send that fails takes the offer back, once and last, and only a cancel of the receiver
ends it as cancelled there. -/
theorem sent_as_announced (decode : Bytes → Option (Option Sharing)) (items : List Outgoing)
    (payload : SendPayload) (acts : List Act) (s : Send) (hitems : sendPayload items = .ok payload)
    (hrun : exec (step decode) (start payload) acts = some s) :
    (dataOf s.outbound.log = [] ∨ ∃ draws, Agreed s.outbound draws ∧ Carries s draws) ∧
    (∀ f ∈ dataOf s.outbound.log, Fits f) ∧
    (∀ bs ∈ s.pieces, ∀ b ∈ bs, 0 < b.length ∧ b.length ≤ 64 * 1024) ∧
    (seqs s.outbound.log).Pairwise (· < ·) ∧ s.progress.sum ≤ wholeBytes s.outbound.log ∧
    (s.phase = .ended (.ok ()) → Delivered s items) ∧
    (s.phase = .ended (.error .cancelledThere) → .heard .cancelled ∈ s.outbound.log) ∧
    (∀ e, s.phase = .ended (.error (.failed e)) → ∃ before es, s.outbound.log = before ++ es ∧
      NoCancel before ∧ framesOf es <+: [.sharing .cancel false, .sharing .cancel true,
        .disconnection]) ∧
    ((∀ e, s.phase ≠ .ended (.error (.failed e))) → NoCancel s.outbound.log) := by
  have hinv := inv_run hrun
  have hkept := hinv.kept
  refine ⟨hkept.sent, hkept.fits, hkept.pieces, hkept.ordered.increasing, hkept.progress, ?_, ?_,
    ?_, hinv.noCancel⟩
  · intro hphase
    rw [Inv, hphase] at hinv
    exact delivered_of hinv (by rw [payload_run hrun]; exact hitems)
  · intro hphase
    rw [Inv, hphase] at hinv
    exact hinv.2
  · intro e hphase
    rw [Inv, hphase] at hinv
    exact hinv.2

/-- The sharing frames of a receiver that says yes. -/
def decodeYes : Bytes → Option (Option Sharing)
  | [1] => some (some ⟨.other, true, false, none⟩)
  | [2] => some (some ⟨.other, false, true, none⟩)
  | [3] => some (some ⟨.response, false, false, some .accept⟩)
  | _ => none

/-- A sharing frame, in one chunk and with its number. -/
def incomingYes (n : ℕ) : Incoming :=
  ⟨64, none, none, some ⟨true, true, some (n, some (some (.payloadTransfer (some
    ⟨true, n, 1, ⟨0, 1, [UInt8.ofNat n]⟩⟩))))⟩⟩

def fileYes : OutgoingFile := ⟨['a'], 2, none⟩

/-- A file of two bytes goes out in two pieces. -/
def actsYes : List Act :=
  let draws : ℕ → NewId × NewId := fun _ => (⟨7, by decide⟩, ⟨8, by decide⟩)
  [.connected true, .requested .whole, .started .whole,
    .frame ⟨64, some ⟨true, some ⟨1, 32, true, true, true⟩⟩, none, none⟩ draws [],
    .frame ⟨64, none, some (some ⟨false, true⟩), none⟩ draws [],
    .frame (incomingYes 1) draws [], .frame (incomingYes 2) draws [],
    .frame (incomingYes 3) draws [], .opened (some ⟨true, 2⟩), .check, .quiet, .read (some [1]),
    .wrote .whole, .check, .quiet, .read (some [2]), .wrote .whole, .check, .finished .whole,
    .lingered ⟨[], some true, .whole, [], none⟩]

theorem sent_as_announced_yes :
    ∃ s, exec (step decodeYes) (start (.files [fileYes])) actsYes = some s ∧ s.phase =
    .ended (.ok ()) ∧ Delivered s [.file fileYes] := by
  have hany : ((exec (step decodeYes) (start (.files [fileYes])) actsYes).any fun s =>
      s.phase = .ended (.ok ())) = true := by decide +kernel
  obtain ⟨s, hs, hphase⟩ := (Option.any_eq_true ..).mp hany
  have hphase' : s.phase = .ended (.ok ()) := of_decide_eq_true hphase
  obtain ⟨-, -, -, -, -, hdelivered, -⟩ :=
    sent_as_announced decodeYes [.file fileYes] _ actsYes s rfl hs
  exact ⟨s, hs, hphase', hdelivered hphase'⟩

end Sukkula.QuickShare.Send
