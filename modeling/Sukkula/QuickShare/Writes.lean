import Sukkula.QuickShare.Outbound

/-! # What a sending connection writes

Whatever the receiver sends, a connection answers with control frames: nothing
of what is sent goes out unless the application hands it over. What was
introduced stays as it was from the introduction on, and the numbers of the
encrypted frames only go up.
-/

namespace Sukkula.QuickShare.Outbound

open Assoc

/-- The numbers of the encrypted frames, in the order they went out. -/
def seqs (log : List Entry) : List ℤ := log.filterMap fun
  | .sent _ seq _ => seq
  | .heard _ => none

def dataOf (log : List Entry) : List Frame := log.filterMap fun
  | .sent f _ _ => if f.isData then some f else none
  | .heard _ => none

/-- No number is used again, and the next is higher than all. -/
structure Ordered (o : Outbound) : Prop where
  increasing : (seqs o.log).Pairwise (· < ·)
  le : ∀ n ∈ seqs o.log, n ≤ o.serverSeq

/-- Only frames with this property are written, if any, and what was introduced is as it was. -/
structure Quiet (P : Frame → Prop) (o o' : Outbound) : Prop where
  log : ∃ es, o'.log = o.log ++ es ∧ ∀ e ∈ es, ∃ f seq whole, e = .sent f seq whole ∧ P f
  payload : o'.payload = o.payload
  fileIds : o'.fileIds = o.fileIds
  textId : o'.textId = o.textId
  transferredFiles : o'.transferredFiles = o.transferredFiles
  ordered : Ordered o → Ordered o'

variable {o o' o'' : Outbound} {P : Frame → Prop} {f : Frame} {w : Wrote}

theorem dataOf_append (log log' : List Entry) : dataOf (log ++ log') = dataOf log ++ dataOf log' :=
  List.filterMap_append

theorem Quiet.refl (o : Outbound) : Quiet P o o := ⟨⟨[], by simp⟩, rfl, rfl, rfl, rfl, id⟩

theorem Quiet.trans (h : Quiet P o o') (h' : Quiet P o' o'') : Quiet P o o'' where
  log := by
    obtain ⟨es, hlog, hes⟩ := h.log
    obtain ⟨es', hlog', hes'⟩ := h'.log
    refine ⟨es ++ es', ?_, fun e he => (List.mem_append.mp he).elim (hes e) (hes' e)⟩
    rw [hlog', hlog, List.append_assoc]
  payload := h'.payload.trans h.payload
  fileIds := h'.fileIds.trans h.fileIds
  textId := h'.textId.trans h.textId
  transferredFiles := h'.transferredFiles.trans h.transferredFiles
  ordered := h'.ordered ∘ h.ordered

theorem Quiet.mono {Q : Frame → Prop} (h : Quiet P o o') (hPQ : ∀ f, P f → Q f) : Quiet Q o o' := by
  obtain ⟨es, hlog, hes⟩ := h.log
  refine ⟨⟨es, hlog, fun e he => ?_⟩, h.payload, h.fileIds, h.textId, h.transferredFiles, h.ordered⟩
  obtain ⟨f, seq, whole, rfl, hf⟩ := hes e he
  exact ⟨f, seq, whole, rfl, hPQ f hf⟩

theorem Quiet.fields {state : TransferState} {clientSeq : ℤ}
    {encryptionDone keys peerWindows : Bool} {payloadBuffers : Table ℤ BytePayload}
    (h : Quiet P o o') :
    Quiet P o { o' with state, clientSeq, encryptionDone, keys, peerWindows, payloadBuffers } where
  log := h.log
  payload := h.payload
  fileIds := h.fileIds
  textId := h.textId
  transferredFiles := h.transferredFiles
  ordered := fun ho => ⟨(h.ordered ho).increasing, (h.ordered ho).le⟩

theorem forall_sent {seq : Option ℤ} {whole : Bool} (hP : P f) :
    ∀ e ∈ [Entry.sent f seq whole], ∃ f seq whole, e = .sent f seq whole ∧ P f := by
  intro e he
  rw [List.mem_singleton.mp he]
  exact ⟨f, seq, whole, rfl, hP⟩

theorem quiet_write (hP : P f) : Quiet P o (o.write f none w).1 where
  log := ⟨_, rfl, forall_sent hP⟩
  payload := rfl
  fileIds := rfl
  textId := rfl
  transferredFiles := rfl
  ordered h := by
    have hseqs : seqs (o.write f none w).1.log = seqs o.log := by simp [write, seqs]
    constructor
    · rw [hseqs]
      exact h.increasing
    · rw [hseqs]
      exact h.le

/-- The next frame is begun; it is whole, or torn. -/
def put (o : Outbound) (f : Frame) (whole : Bool) : Outbound :=
  { o with serverSeq := o.serverSeq + 1, log := o.log ++ [.sent f (some (o.serverSeq + 1)) whole] }

theorem Ordered.put (h : Ordered o) (f : Frame) (whole : Bool) : Ordered (o.put f whole) := by
  have hseqs : seqs (o.log ++ [.sent f (some (o.serverSeq + 1)) whole]) =
      seqs o.log ++ [o.serverSeq + 1] := by
    simp [seqs]
  constructor
  · rw [Outbound.put, hseqs, List.pairwise_append]
    refine ⟨h.increasing, List.pairwise_singleton .., fun n hn m hm => ?_⟩
    rw [List.mem_singleton.mp hm]
    exact Int.lt_add_one_of_le (h.le n hn)
  · intro n hn
    rw [Outbound.put, hseqs] at hn
    rcases List.mem_append.mp hn with hn | hn
    · exact Int.le_add_one (h.le n hn)
    · exact (List.mem_singleton.mp hn).le

/-- What becomes of a frame: it is written, or torn, or not even begun. -/
inductive Sends (o : Outbound) (f : Frame) : Outbound × Except Broke Unit → Prop
  | whole : Sends o f (o.put f true, .ok ())
  | torn (e : Broke) : Sends o f (o.put f false, .error e)
  | not (serverSeq : ℤ) : o.serverSeq ≤ serverSeq → Sends o f ({ o with serverSeq }, .error .failed)

theorem sends_encryptAndSend (o : Outbound) (f : Frame) (w : Wrote) :
    Sends o f (o.encryptAndSend f w) := by
  unfold encryptAndSend
  dsimp only
  split_ifs
  · exact .not o.serverSeq le_rfl
  · cases w
    · exact .whole
    · exact .torn .failed
    · exact .torn .stalled
  · exact .not _ (by simp)

theorem Sends.quiet {r : Outbound × Except Broke Unit} (h : Sends o f r) (hP : P f) :
    Quiet P o r.1 := by
  cases h with
  | whole | torn =>
    exact ⟨⟨_, rfl, forall_sent hP⟩, rfl, rfl, rfl, rfl, fun h => h.put f _⟩
  | not n hn =>
    exact ⟨⟨[], by simp⟩, rfl, rfl, rfl, rfl,
      fun h => ⟨h.increasing, fun m hm => (h.le m hm).trans hn⟩⟩

theorem quiet_encryptAndSend (hP : P f) : Quiet P o (o.encryptAndSend f w).1 :=
  (sends_encryptAndSend o f w).quiet hP

theorem quiet_sendEither (hP : P f) : Quiet P o (o.sendEither f w).1 := by
  unfold sendEither
  split
  · exact quiet_encryptAndSend hP
  · exact quiet_write hP

/-- Frames sent one after the other: those that went out are the first ones, and all if it went
well. -/
theorem sendAll_spec (o : Outbound) (fs : List Frame) (io : List Wrote) :
    ∃ gs : List (Frame × ℤ × Bool),
      (o.sendAll fs io).1.log = o.log ++ gs.map (fun g => .sent g.1 (some g.2.1) g.2.2) ∧
      gs.map Prod.fst <+: fs ∧
      ((o.sendAll fs io).2 = .ok () → gs.map Prod.fst = fs ∧ ∀ g ∈ gs, g.2.2 = true) := by
  induction fs generalizing o io with
  | nil => exact ⟨[], by simp [sendAll]⟩
  | cons f fs ih =>
    have hs := sends_encryptAndSend o f (io.headD .whole)
    unfold sendAll
    generalize o.encryptAndSend f (io.headD .whole) = r at hs ⊢
    cases hs with
    | whole =>
      obtain ⟨gs, hlog, hfst, hok⟩ := ih (o.put f true) io.tail
      refine ⟨(f, o.serverSeq + 1, true) :: gs, ?_, ?_, fun h => ?_⟩
      · exact hlog.trans (by simp [put])
      · simpa using hfst
      · obtain ⟨hall, hwhole⟩ := hok h
        exact ⟨by simp [hall], by simpa using hwhole⟩
    | torn e => exact ⟨[(f, o.serverSeq + 1, false)], by simp [put], by simp, nofun⟩
    | not n hn => exact ⟨[], by simp, by simp, nofun⟩

theorem quiet_sendAll (o : Outbound) (fs : List Frame) (io : List Wrote) (hP : ∀ f ∈ fs, P f) :
    Quiet P o (o.sendAll fs io).1 := by
  induction fs generalizing o io with
  | nil => exact .refl o
  | cons f fs ih =>
    have hs := quiet_encryptAndSend (o := o) (w := io.headD .whole) (hP f (by simp))
    unfold sendAll
    split
    · next heq => exact (heq ▸ hs).trans (ih _ _ fun g hg => hP g (by simp [hg]))
    · next heq => exact heq ▸ hs

/-- What is introduced is what the application was told, and the introduction is out. -/
def Introduced (o : Outbound) : Prop :=
  ∃ draws seq, o.fileIds = (o.introduce draws).1.fileIds ∧ o.textId = (o.introduce draws).1.textId ∧
    o.transferredFiles = (o.introduce draws).1.transferredFiles ∧
    .sent (.sharing (o.introduce draws).2 false) (some seq) true ∈ o.log

/-- What comes of a frame of the receiver: it is answered, and only the paired key result brings on
the introduction. -/
structure Processes (o : Outbound) (r : Outbound × Except Broke (Option OutboundEvent)) : Prop where
  log : ∃ es, r.1.log = o.log ++ es ∧ ∀ e ∈ es, ∃ f seq whole, e = .sent f seq whole ∧ f.answers
  payload : r.1.payload = o.payload
  ordered : Ordered o → Ordered r.1
  quiet : o.state.late → Quiet (·.answers) o r.1
  late : o.state.late → r.1.state.late
  introduced : r.2 = .ok (some .introductionSent) → Introduced r.1 ∧ r.1.state.late

theorem Quiet.processes {r : Except Broke (Option OutboundEvent)} (h : Quiet (·.answers) o o')
    (hlate : o.state.late → o'.state.late) (hr : r ≠ .ok (some .introductionSent)) :
    Processes o (o', r) :=
  ⟨h.log, h.payload, h.ordered, fun _ => h, hlate, fun he => absurd he hr⟩

theorem Processes.head {r : Outbound × Except Broke (Option OutboundEvent)}
    (h : Quiet (·.answers) o o') (hs : o'.state = o.state) (hr : Processes o' r) :
    Processes o r := by
  obtain ⟨es, hlog, hes⟩ := h.log
  obtain ⟨es', hlog', hes'⟩ := hr.log
  constructor
  · refine ⟨es ++ es', ?_, fun e he => (List.mem_append.mp he).elim (hes e) (hes' e)⟩
    rw [hlog', hlog, List.append_assoc]
  · exact hr.payload.trans h.payload
  · exact hr.ordered ∘ h.ordered
  · exact fun hl => h.trans (hr.quiet (hs ▸ hl))
  · exact fun hl => hr.late (hs ▸ hl)
  · exact hr.introduced

theorem quiet_alert (type : AlertType) : Quiet (·.answers) o (o.alert type w).1 := by
  have h := quiet_write (P := (·.answers)) (o := o) (f := .ukey2Alert type) (w := w) rfl
  unfold alert
  split
  · next heq =>
    rw [heq] at h
    exact h
  · exact h

theorem quiet_processUkey2ServerInit (msg : Ukey2Message) (io : List Wrote) :
    Quiet (·.answers) o (o.processUkey2ServerInit msg io).1 := by
  unfold processUkey2ServerInit
  dsimp only
  split_ifs
  · exact quiet_alert _
  split
  · exact .refl o
  split_ifs
  · exact quiet_alert _
  · exact quiet_alert _
  · exact quiet_alert _
  · exact .refl o
  · exact .refl o
  · have hkeys : Quiet (·.answers) o { o with keys := true, encryptionDone := true } :=
      (Quiet.refl o).fields
    have hfinish := hkeys.trans (quiet_write (f := .ukey2ClientFinish) (w := io.headD .whole) rfl)
    split
    · next heq =>
      rw [heq] at hfinish
      exact hfinish.trans (quiet_write rfl)
    · exact hfinish

theorem quiet_processConnectionResponse (response : Option ConnectionResponse) (io : List Wrote) :
    Quiet (·.answers) o (o.processConnectionResponse response io).1 := by
  unfold processConnectionResponse
  split
  · exact .refl o
  dsimp only
  split_ifs
  · exact (Quiet.refl o).fields
  · exact Quiet.trans (Quiet.refl o).fields
      (quiet_sendAll _ _ _ (by simp [sharingFrames, Frame.answers]))

theorem quiet_decryptSecureMessage (m : Secure) :
    Quiet P o (o.decryptSecureMessage m).1 ∧ (o.decryptSecureMessage m).1.state = o.state := by
  have hrefl : Quiet P o o ∧ o.state = o.state := ⟨.refl o, rfl⟩
  have hseq : Quiet P o { o with clientSeq := o.clientSeq + 1 } := (Quiet.refl o).fields
  unfold decryptSecureMessage
  split
  · exact hrefl
  split
  · exact hrefl
  split
  · exact hrefl
  dsimp only
  split
  · exact ⟨hseq, rfl⟩
  split
  · exact ⟨hseq, rfl⟩
  · exact ⟨hseq, rfl⟩

theorem goodbyeThen_fst {α : Type} {a : α} :
    (o.goodbyeThen w a).1 = (o.sendEither .disconnection w).1 := by
  unfold goodbyeThen
  split
  · next heq => rw [heq]
  · next heq => rw [heq]

theorem quiet_goodbyeThen {α : Type} {a : α} : Quiet (·.answers) o (o.goodbyeThen w a).1 := by
  rw [goodbyeThen_fst]
  exact quiet_sendEither rfl

theorem state_encryptAndSend : (o.encryptAndSend f w).1.state = o.state := by
  have h := sends_encryptAndSend o f w
  generalize o.encryptAndSend f w = r at h ⊢
  cases h <;> rfl

theorem state_sendEither : (o.sendEither f w).1.state = o.state := by
  unfold sendEither
  split
  · exact state_encryptAndSend
  · rfl

theorem goodbyeThen_ne {α : Type} {a b : α} (h : a ≠ b) : (o.goodbyeThen w a).2 ≠ .ok b := by
  unfold goodbyeThen
  split
  · simp
  · simpa using h

theorem processes_goodbyeThen {state : TransferState} {e : OutboundEvent} (hlate : state.late)
    (he : e ≠ .introductionSent) : Processes o ({ o with state }.goodbyeThen w (some e)) := by
  apply Quiet.processes ((Quiet.refl o).fields.trans quiet_goodbyeThen)
  · intro
    rw [goodbyeThen_fst, state_sendEither]
    exact hlate
  · exact goodbyeThen_ne (by simpa using he)

theorem processes_refl {r : Except Broke (Option OutboundEvent)}
    (hr : r ≠ .ok (some .introductionSent)) : Processes o (o, r) :=
  (Quiet.refl o).processes id hr

theorem introduce_fields (o : Outbound) (draws : ℕ → NewId × NewId) :
    (o.introduce draws).1.log = o.log ∧ (o.introduce draws).1.payload = o.payload ∧
      (o.introduce draws).1.serverSeq = o.serverSeq := by
  unfold introduce
  split <;> exact ⟨rfl, rfl, rfl⟩

theorem answers_introduce (o : Outbound) (draws : ℕ → NewId × NewId) :
    ∀ f ∈ sharingFrames (o.introduce draws).2 ++ sharingFrames (.response .accept), f.answers := by
  unfold introduce
  split <;> simp [sharingFrames, Frame.answers]

theorem introduce_congr {o p : Outbound} (draws : ℕ → NewId × NewId) (h : p.payload = o.payload) :
    (p.introduce draws).1.fileIds = (o.introduce draws).1.fileIds ∧
      (p.introduce draws).1.textId = (o.introduce draws).1.textId ∧
      (p.introduce draws).1.transferredFiles = (o.introduce draws).1.transferredFiles ∧
      (p.introduce draws).2 = (o.introduce draws).2 := by
  unfold introduce
  rw [h]
  cases o.payload <;> exact ⟨rfl, rfl, rfl, rfl⟩

/-- The answer to the paired key result, which is the introduction. -/
theorem processes_introduction (frame : Sharing) (draws : ℕ → NewId × NewId) (io : List Wrote)
    (hstate : o.state = .sentPairedKeyResult) :
    Processes o (match o.processPairedKeyResult frame draws io with
      | (o, .ok ()) => ({ o with state := .sentIntroduction }, .ok (some .introductionSent))
      | (o, .error e) => (o, .error e)) := by
  have hearly : o.state.late = false := by simp [hstate, TransferState.late]
  unfold processPairedKeyResult
  by_cases hno : frame.pairedKeyResult = false
  · rw [if_pos hno]
    exact processes_refl (by simp)
  rw [if_neg hno]
  dsimp only
  obtain ⟨hlog, hpayload, hseq⟩ := introduce_fields o draws
  have hq := quiet_sendAll (o.introduce draws).1 _ io (answers_introduce o draws)
  have hs := sendAll_spec (o.introduce draws).1
    (sharingFrames (o.introduce draws).2 ++ sharingFrames (.response .accept)) io
  generalize (o.introduce draws).1.sendAll _ io = r at hq hs ⊢
  obtain ⟨o₂, r⟩ := r
  obtain ⟨es, hes, hans⟩ := hq.log
  have hord : Ordered o → Ordered o₂ := by
    intro h
    apply hq.ordered
    constructor
    · rw [hlog]
      exact h.increasing
    · rw [hlog, hseq]
      exact h.le
  have hpay : o₂.payload = o.payload := hq.payload.trans hpayload
  rw [hlog] at hes
  cases r with
  | error e => exact ⟨⟨es, hes, hans⟩, hpay, hord, by simp [hearly], by simp [hearly], by simp⟩
  | ok u =>
    refine ⟨⟨es, hes, hans⟩, hpay, ?_, by simp [hearly], by simp [hearly], ?_⟩
    · exact fun h => ⟨(hord h).increasing, (hord h).le⟩
    · intro _
      obtain ⟨gs, hgs, -, hok⟩ := hs
      obtain ⟨hfst, hwhole⟩ := hok rfl
      have hmem : Frame.sharing (o.introduce draws).2 false ∈ gs.map Prod.fst := by
        simp [hfst, sharingFrames]
      obtain ⟨⟨f, seq, whole⟩, hg, rfl⟩ := List.mem_map.mp hmem
      obtain rfl : whole = true := hwhole _ hg
      obtain ⟨hids, htext, hfiles, hframe⟩ :=
        introduce_congr (o := o) (p := { o₂ with state := .sentIntroduction }) draws hpay
      refine ⟨⟨draws, seq, ?_, ?_, ?_, ?_⟩, rfl⟩
      · rw [hids]
        exact hq.fileIds
      · rw [htext]
        exact hq.textId
      · rw [hfiles]
        exact hq.transferredFiles
      · rw [hframe]
        have : o₂.log = _ := hgs
        rw [this]
        exact List.mem_append_right _ (List.mem_map.mpr ⟨_, hg, rfl⟩)

theorem processes_then (x : Outbound × Except Broke Unit) (hearly : o.state.late = false)
    (g : Outbound → Outbound) (hg : ∀ o₁, Quiet (·.answers) o o₁ → Quiet (·.answers) o (g o₁)) :
    Quiet (·.answers) o x.1 → Processes o (match x with
      | (o, .ok ()) => (g o, .ok none)
      | (o, .error e) => (o, .error e)) := by
  intro h
  obtain ⟨o₁, r⟩ := x
  cases r with
  | error e => exact Quiet.processes h (by simp [hearly]) (by simp)
  | ok u => exact Quiet.processes (hg o₁ h) (by simp [hearly]) (by simp)

theorem quiet_processPairedKeyEncryptionFrame (frame : Sharing) (io : List Wrote) :
    Quiet (·.answers) o (o.processPairedKeyEncryptionFrame frame io).1 := by
  unfold processPairedKeyEncryptionFrame
  split
  · exact .refl o
  · exact quiet_sendAll _ _ _ (by simp [sharingFrames, Frame.answers])

theorem processConsent_spec (frame : Sharing) (io : List Wrote) :
    Quiet (·.answers) o (o.processConsent frame io).1 ∧
      (o.state.late → (o.processConsent frame io).1.state.late) ∧
      (o.processConsent frame io).2 ≠ .ok .introductionSent := by
  have hbye (state : TransferState) (status : Status) (hlate : state.late) :
      let x := { o with state }.goodbyeThen (io.headD .whole) (OutboundEvent.rejected status)
      Quiet (·.answers) o x.1 ∧ (o.state.late → x.1.state.late) ∧ x.2 ≠ .ok .introductionSent := by
    refine ⟨(Quiet.refl o).fields.trans quiet_goodbyeThen, fun _ => ?_, goodbyeThen_ne (by simp)⟩
    rw [goodbyeThen_fst, state_sendEither]
    exact hlate
  unfold processConsent
  split
  · exact ⟨(Quiet.refl o).fields, fun _ => rfl, by simp⟩
  · exact hbye _ _ rfl
  · exact hbye _ _ rfl
  · exact ⟨.refl o, id, by simp⟩

theorem processes_consent (frame : Sharing) (io : List Wrote) :
    Processes o (match o.processConsent frame io with
      | (o, .ok e) => (o, .ok (some e))
      | (o, .error e) => (o, .error e)) := by
  obtain ⟨hq, hlate, hne⟩ := processConsent_spec (o := o) frame io
  generalize o.processConsent frame io = x at hq hlate hne ⊢
  obtain ⟨o₁, r⟩ := x
  cases r with
  | error e => exact Quiet.processes hq hlate (by simp)
  | ok e => exact Quiet.processes hq hlate (by simpa using hne)

theorem processes_processTransferSetup (frame : Option Sharing) (draws : ℕ → NewId × NewId)
    (io : List Wrote) : Processes o (o.processTransferSetup frame draws io) := by
  unfold processTransferSetup
  split
  · exact processes_refl (by simp)
  next frame =>
  split
  · exact processes_goodbyeThen rfl (by simp)
  split
  · next hstate =>
    have hearly : o.state.late = false := by simp [hstate, TransferState.late]
    exact processes_then _ hearly (fun o => { o with state := .sentPairedKeyResult })
      (fun _ h => h.fields)
      (quiet_processPairedKeyEncryptionFrame ..)
  · next hstate => exact processes_introduction frame draws io hstate
  · exact processes_consent frame io
  · exact processes_refl (by simp)

theorem processes_keepAlive (w : Wrote) :
    Processes o (match o.sendEither (.keepAlive true) w with
      | (o, .ok ()) => (o, .ok none)
      | (o, .error e) => (o, .error e)) := by
  have h := quiet_sendEither (P := (·.answers)) (o := o) (f := .keepAlive true) (w := w) rfl
  have hs := state_sendEither (o := o) (f := .keepAlive true) (w := w)
  generalize o.sendEither (.keepAlive true) w = x at h hs ⊢
  obtain ⟨o₁, r⟩ := x
  cases r <;> exact Quiet.processes h (fun hl => hs ▸ hl) (by simp)

theorem processes_decryptAndProcess (decode : Bytes → Option (Option Sharing)) (m : Secure)
    (draws : ℕ → NewId × NewId) (io : List Wrote) :
    Processes o (o.decryptAndProcessSecureMessage decode m draws io) := by
  obtain ⟨hq, hstate⟩ := quiet_decryptSecureMessage (P := (·.answers)) (o := o) m
  unfold decryptAndProcessSecureMessage
  generalize o.decryptSecureMessage m = x at hq hstate ⊢
  obtain ⟨o₁, r⟩ := x
  apply Processes.head hq hstate
  rcases r with e | _ | offline
  · exact processes_refl (by simp)
  · exact processes_refl (by simp)
  cases offline with
  | keepAlive => exact processes_keepAlive _
  | disconnection => exact Quiet.processes (Quiet.refl o₁).fields (fun _ => rfl) (by simp)
  | other => exact processes_refl (by simp)
  | payloadTransfer transfer =>
    cases transfer with
    | none => exact processes_refl (by simp)
    | some t =>
      dsimp only
      split
      · have hbuffers (payloadBuffers : Table ℤ BytePayload) :
            Quiet (·.answers) o₁ { o₁ with payloadBuffers } := (Quiet.refl o₁).fields
        split
        · exact Quiet.processes (hbuffers _) id (by simp)
        · exact Quiet.processes (hbuffers _) id (by simp)
        · next payloadBuffers _ =>
          split
          · exact Quiet.processes (hbuffers _) id (by simp)
          · exact Processes.head (hbuffers payloadBuffers) rfl (processes_processTransferSetup ..)
      · exact processes_refl (by simp)

theorem processes_dispatch (decode : Bytes → Option (Option Sharing)) (f : Incoming)
    (draws : ℕ → NewId × NewId) (io : List Wrote) : Processes o (o.dispatch decode f draws io) := by
  unfold dispatch
  split
  · exact processes_refl (by simp)
  split
  · next hstate =>
    have hearly : o.state.late = false := by simp [hstate, TransferState.late]
    split
    · exact processes_refl (by simp)
    · exact processes_then _ hearly
        (fun o => { o with state := .sentUkeyClientFinish, encryptionDone := true })
          (fun _ h => h.fields)
        (quiet_processUkey2ServerInit ..)
  · next hstate =>
    have hearly : o.state.late = false := by simp [hstate, TransferState.late]
    split
    · exact processes_refl (by simp)
    · exact processes_then _ hearly
        (fun o => { o with state := .sentPairedKeyEncryption, encryptionDone := true })
          (fun _ h => h.fields)
        (quiet_processConnectionResponse ..)
  · split
    · exact processes_refl (by simp)
    · exact processes_decryptAndProcess ..

/-- A frame of the receiver, and the event that is written down. -/
theorem processFrame_spec (o : Outbound) (decode : Bytes → Option (Option Sharing)) (f : Incoming)
    (draws : ℕ → NewId × NewId) (io : List Wrote) :
    ∃ o₁, Processes o (o₁, (o.processFrame decode f draws io).2) ∧
      (o.processFrame decode f draws io).1 = { o₁ with
        log := o₁.log ++ match (o.processFrame decode f draws io).2 with
          | .ok (some e) => [.heard e]
          | _ => [] } := by
  have h := processes_dispatch (o := o) decode f draws io
  unfold processFrame
  generalize o.dispatch decode f draws io = x at h ⊢
  obtain ⟨o₁, e | _ | e⟩ := x
  · exact ⟨o₁, h, by simp⟩
  · exact ⟨o₁, h, by simp⟩
  · exact ⟨o₁, h, by simp⟩

theorem quiet_waitForPeerClose (frames : List (Option Secure × Wrote)) (closed : Option Bool) :
    Quiet (·.answers) o (o.waitForPeerClose frames closed).1 := by
  induction frames generalizing o with
  | nil => cases closed <;> exact .refl o
  | cons f frames ih =>
    obtain ⟨m, w⟩ := f
    cases m with
    | none => exact .refl o
    | some m =>
      have hq := (quiet_decryptSecureMessage (P := (·.answers)) (o := o) m).1
      unfold waitForPeerClose
      generalize o.decryptSecureMessage m = x at hq ⊢
      obtain ⟨o₁, e | offline⟩ := x
      · exact hq
      · have hk := hq.trans (quiet_sendEither (f := .keepAlive true) (w := w) rfl)
        rcases offline with _ | t | _ | _ | _
        · exact hq.trans ih
        · exact hq.trans ih
        · dsimp only
          generalize o₁.sendEither (.keepAlive true) w = y at hk ⊢
          obtain ⟨o₂, (_ | _) | _⟩ := y
          · exact hk.trans ih
          · exact hk
          · exact hk.trans ih
        · exact hq
        · exact hq.trans ih

theorem quiet_finish (l : Linger) : Quiet (·.answers) o (o.finish l).1 := by
  have hq := quiet_waitForPeerClose (o := o) l.first l.firstClosed
  unfold finish
  generalize o.waitForPeerClose l.first l.firstClosed = x at hq ⊢
  obtain ⟨o₁, e | closed⟩ := x
  · exact hq
  cases closed with
  | true => exact hq.fields
  | false =>
    dsimp only
    split
    · exact hq.fields
    have hk := hq.trans (quiet_sendEither (f := .disconnection) (w := l.goodbye) rfl)
    generalize o₁.sendEither .disconnection l.goodbye = y at hk ⊢
    obtain ⟨o₂, e | u⟩ := y
    · exact hk
    have hw := hk.trans (quiet_waitForPeerClose l.second l.secondClosed)
    dsimp only
    generalize o₂.waitForPeerClose l.second l.secondClosed = z at hw ⊢
    obtain ⟨o₃, e | closed⟩ := z
    · exact hw
    · exact hw.fields

theorem state_finish {l : Linger} (h : (o.finish l).2 = .ok ()) :
    (o.finish l).1.state = .finished := by
  revert h
  unfold finish
  split
  · nofun
  · exact fun _ => rfl
  split
  · exact fun _ => rfl
  split
  · nofun
  split
  · nofun
  · exact fun _ => rfl

def framesOf (log : List Entry) : List Frame := log.filterMap fun
  | .sent f _ _ => some f
  | .heard _ => none

theorem sendEither_log (o : Outbound) (f : Frame) (w : Wrote) :
    ∃ es, (o.sendEither f w).1.log = o.log ++ es ∧ framesOf es <+: [f] := by
  unfold sendEither
  split
  · have hs := sends_encryptAndSend o f w
    generalize o.encryptAndSend f w = r at hs ⊢
    cases hs with
    | whole => exact ⟨_, rfl, by simp [framesOf]⟩
    | torn => exact ⟨_, rfl, by simp [framesOf]⟩
    | not => exact ⟨[], by simp, by simp [framesOf]⟩
  · exact ⟨_, rfl, by simp [framesOf]⟩

/-- A transfer is cancelled in three frames, as many of them as get through. -/
theorem cancelTransfer_log (o : Outbound) (io : List Wrote) :
    ∃ es, (o.cancelTransfer io).1.log = o.log ++ es ∧
      framesOf es <+: [.sharing .cancel false, .sharing .cancel true, .disconnection] := by
  obtain ⟨gs, hlog, hfst, hok⟩ := sendAll_spec o (sharingFrames .cancel) io
  have hframes : framesOf (gs.map fun g => Entry.sent g.1 (some g.2.1) g.2.2) =
      gs.map Prod.fst := by
    simp [framesOf, List.filterMap_map]
  have hshort : [Frame.sharing .cancel false, .sharing .cancel true] <+:
      [.sharing .cancel false, .sharing .cancel true, .disconnection] := ⟨[.disconnection], rfl⟩
  unfold cancelTransfer
  generalize o.sendAll (sharingFrames .cancel) io = x at hlog hok ⊢
  obtain ⟨o₁, e | u⟩ := x
  · exact ⟨_, hlog, hframes ▸ hfst.trans hshort⟩
  · obtain ⟨es, hes, hdis⟩ :=
      sendEither_log { o₁ with state := .cancelled } .disconnection (io.getD 2 .whole)
    have hlog' : o₁.log = o.log ++ gs.map fun g => Entry.sent g.1 (some g.2.1) g.2.2 := hlog
    refine ⟨(gs.map fun g => Entry.sent g.1 (some g.2.1) g.2.2) ++ es, ?_, ?_⟩
    · rw [← List.append_assoc, ← hlog']
      exact hes
    · rw [framesOf, List.filterMap_append, ← framesOf, ← framesOf, hframes, (hok rfl).1]
      exact (List.prefix_append_right_inj (sharingFrames .cancel)).mpr hdis

theorem quiet_cancelTransfer (io : List Wrote) :
    Quiet (·.isData = false) o (o.cancelTransfer io).1 := by
  have hq := quiet_sendAll (P := (·.isData = false)) o (sharingFrames .cancel) io
    (by simp [sharingFrames, Frame.isData])
  unfold cancelTransfer
  generalize o.sendAll (sharingFrames .cancel) io = x at hq ⊢
  obtain ⟨o₁, e | u⟩ := x
  · exact hq
  · exact hq.fields.trans (quiet_sendEither rfl)

end Sukkula.QuickShare.Outbound
