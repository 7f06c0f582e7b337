import Sukkula.QuickShare.Send

/-! # The frames of the files of a Quick Share send

What goes out of each file, against what was introduced and what is read of it:
consecutive pieces, one file after the other, never more than was announced. The
book-keeping of the connection says the same as the frames on the wire.
-/

namespace Sukkula.QuickShare.Send

open Assoc Transition Outbound
open Croc (utf8)
open LocalSend (ErrorInfo ioChunkBytes)

/-- The name under which the frames of a payload go out: that of the first file with its id. -/
def nameOf (ms : List FileMetadata) (id : ℤ) : Option Str :=
  (ms.find? (·.payloadId = id)).map (·.name)

/-- The announced size of a payload: that of the last file with its id. -/
def totalOf (ms : List FileMetadata) (id : ℤ) : ℤ :=
  ((ms.reverse.find? (·.payloadId = id)).map (·.size)).getD 0

/-- The frames of pieces of a file, from an offset and an index on. -/
def chunkFrames (ms : List FileMetadata) (id : ℤ) : ℤ → ℤ → List Bytes → List Frame
  | _, _, [] => []
  | offset, index, b :: bs =>
    .file id (nameOf ms id) (totalOf ms id) offset 0 index b ::
      chunkFrames ms id (offset + b.length) (index + 1) bs

/-- The frame that says that a file is complete. -/
def lastFrame (ms : List FileMetadata) (id : ℤ) (bs : List Bytes) : Frame :=
  .file id (nameOf ms id) (totalOf ms id) (totalOf ms id) 1 bs.length []

/-- The frames of a file that is read in these pieces; the last one only if it is complete. -/
def fileFrames (ms : List FileMetadata) (id : ℤ) (bs : List Bytes) : List Frame :=
  chunkFrames ms id 0 0 bs ++ if (bs.flatten.length : ℤ) = totalOf ms id then [lastFrame ms id bs]
    else []

/-- The frames of the files of an introduction that are read in these pieces. -/
def plan (ms : List FileMetadata) (pieces : List (List Bytes)) : List Frame :=
  (List.zipWith (fun m bs => fileFrames ms m.payloadId bs) ms pieces).flatten

/-- The metadata of the files of a send; `draws` are the numbers that were drawn. -/
def metadata (files : List OutgoingFile) (draws : ℕ → NewId × NewId) : List FileMetadata :=
  (files.map OutgoingFile.wire).mapIdx fun i f => fileMetadata f (draws i)

def isCancel : Frame → Bool
  | .sharing .cancel _ => true
  | _ => false

def NoCancel (log : List Entry) : Prop := ∀ f ∈ framesOf log, isCancel f = false

/-- A piece of a file that does not go past the announced size. -/
def Fits : Frame → Prop
  | .file _ _ total offset _ _ body => offset + body.length ≤ total
  | _ => True

/-- The bytes of the frames that carry what is sent and are whole. -/
def wholeBytes (log : List Entry) : ℕ :=
  (log.map fun
    | .sent (.file _ _ _ _ _ _ body) _ true => body.length
    | .sent (.text _ _ _ _ _ body) _ true => body.length
    | _ => 0).sum

variable {o o' : Outbound} {s t : Send} {files : List OutgoingFile} {draws : ℕ → NewId × NewId}
  {ms : List FileMetadata}

/-- The connection goes on, and nothing of what is sent goes out. -/
structure Answers (o o' : Outbound) : Prop where
  log : ∃ es, o'.log = o.log ++ es ∧ dataOf es = [] ∧ NoCancel es
  payload : o'.payload = o.payload
  fileIds : o'.fileIds = o.fileIds
  textId : o'.textId = o.textId
  transferredFiles : o'.transferredFiles = o.transferredFiles
  ordered : Ordered o → Ordered o'

theorem isData_of_answers {f : Frame} (h : f.answers) : f.isData = false := by
  cases f <;> first | rfl | cases h

theorem isCancel_of_answers {f : Frame} (h : f.answers) : isCancel f = false := by
  cases f with
  | sharing frame last => cases frame <;> first | rfl | cases h
  | _ => rfl

theorem quiet_entries {es : List Entry}
    (h : ∀ e ∈ es, ∃ f seq whole, e = .sent f seq whole ∧ f.answers) :
    dataOf es = [] ∧ NoCancel es := by
  constructor
  · refine List.filterMap_eq_nil_iff.mpr fun e he => ?_
    obtain ⟨f, seq, whole, rfl, hf⟩ := h e he
    simp [isData_of_answers hf]
  · intro f hf
    obtain ⟨e, he, hef⟩ := List.mem_filterMap.mp hf
    obtain ⟨g, seq, whole, rfl, hg⟩ := h e he
    obtain rfl : g = f := Option.some.inj hef
    exact isCancel_of_answers hg

theorem Answers.of_quiet (h : Quiet (·.answers) o o') : Answers o o' := by
  obtain ⟨es, hlog, hes⟩ := h.log
  exact ⟨⟨es, hlog, quiet_entries hes⟩, h.payload, h.fileIds, h.textId,
    h.transferredFiles, h.ordered⟩

theorem NoCancel.append {l l' : List Entry} (h : NoCancel l) (h' : NoCancel l') :
    NoCancel (l ++ l') := by
  intro f hf
  rw [framesOf, List.filterMap_append] at hf
  exact (List.mem_append.mp hf).elim (h f) (h' f)

theorem noCancel_heard (e : OutboundEvent) : NoCancel [.heard e] := by
  intro f hf
  simp [framesOf] at hf

theorem dataOf_heard (e : OutboundEvent) : dataOf [.heard e] = [] := rfl

/-- The events that are written down do not matter to what goes out. -/
theorem Answers.heard (h : Answers o o') (e : OutboundEvent) :
    Answers o { o' with log := o'.log ++ [.heard e] } where
  log := by
    obtain ⟨es, hlog, hdata, hno⟩ := h.log
    refine ⟨es ++ [.heard e], by simp [hlog], ?_, hno.append (noCancel_heard e)⟩
    rw [dataOf_append, hdata, dataOf_heard, List.append_nil]
  payload := h.payload
  fileIds := h.fileIds
  textId := h.textId
  transferredFiles := h.transferredFiles
  ordered ho := by
    have hseqs : seqs (o'.log ++ [.heard e]) = seqs o'.log := by simp [seqs]
    constructor
    · rw [hseqs]
      exact (h.ordered ho).increasing
    · rw [hseqs]
      exact (h.ordered ho).le

/-! ## The introduction -/

theorem length_metadata (files : List OutgoingFile) (draws : ℕ → NewId × NewId) :
    (metadata files draws).length = files.length := by
  simp [metadata]

theorem introduce_files (h : o.payload = (SendPayload.files files).wire)
    (draws : ℕ → NewId × NewId) : (o.introduce draws).2 = .introduction (metadata files draws) [] ∧
      (o.introduce draws).1.fileIds = (metadata files draws).map (·.payloadId) ∧
      (o.introduce draws).1.transferredFiles =
        (metadata files draws).foldl (fun t m => t.set m.payloadId ⟨0, m.size, 0⟩) .empty := by
  unfold introduce
  rw [h]
  exact ⟨rfl, rfl, rfl⟩

/-- The book-keeping of a file that was introduced: nothing is sent yet, of the size of the last
with its id. -/
theorem lookup_introduced (ms : List FileMetadata) (id : ℤ) :
    (ms.foldl (fun t m => t.set m.payloadId ⟨0, m.size, 0⟩)
      (.empty : Table ℤ InternalFileInfo)).lookup id =
      (ms.reverse.find? (·.payloadId = id)).map fun m => ⟨0, m.size, 0⟩ := by
  induction ms using List.reverseRecOn with
  | nil => rfl
  | append_singleton ms m ih =>
    rw [List.foldl_concat, Table.lookup_set, ih, List.reverse_concat, List.find?_cons]
    by_cases hid : id = m.payloadId
    · simp [hid]
    · simp [hid, Ne.symm hid]

/-- The name of a payload: the place of its id among the ids is the place of its file. -/
theorem getElem?_idxOf (ms : List FileMetadata) (id : ℤ) :
    (if id ∈ ms.map (·.payloadId) then ms[(ms.map (·.payloadId)).idxOf id]?.map (·.name)
      else none) = nameOf ms id := by
  induction ms with
  | nil => rfl
  | cons m ms ih =>
    unfold nameOf at ih ⊢
    by_cases hid : id = m.payloadId
    · simp [hid]
    · have hne : m.payloadId ≠ id := Ne.symm hid
      simp only [List.map_cons, List.mem_cons, hid, false_or, List.find?_cons, hne, decide_false]
      rw [← ih, List.idxOf_cons_ne _ hne]
      rfl

theorem getElem?_metadata (files : List OutgoingFile) (draws : ℕ → NewId × NewId) (i : ℕ) :
    (metadata files draws)[i]? = files[i]?.map fun f => fileMetadata f.wire (draws i) := by
  simp [metadata, List.getElem?_mapIdx, Function.comp_def]

theorem fileName_eq (h : o.payload = (SendPayload.files files).wire)
    (hids : o.fileIds = (metadata files draws).map (·.payloadId)) (id : ℤ) :
    o.fileName id = nameOf (metadata files draws) id := by
  rw [← getElem?_idxOf, fileName, h, hids]
  have hnames (i : ℕ) : (files.map OutgoingFile.wire)[i]?.map QsFile.name =
      (metadata files draws)[i]?.map (·.name) := by
    rw [getElem?_metadata, List.getElem?_map, Option.map_map, Option.map_map]
    rfl
  simp only [SendPayload.wire, hnames]

/-! ## The operations on files -/

def chunkFrame (o : Outbound) (id : ℤ) (info : InternalFileInfo) (body : Bytes) : Frame :=
  .file id (o.fileName id) info.totalSize info.bytesTransferred 0 info.chunks body

def closeFrame (o : Outbound) (id : ℤ) (info : InternalFileInfo) : Frame :=
  .file id (o.fileName id) info.totalSize info.totalSize 1 info.chunks []

/-- What comes of a frame about a file: `after` is the book-keeping once it is out. -/
inductive FileSent (o : Outbound) (frame : Frame) (after : Table ℤ InternalFileInfo) :
    Outbound × Except Broke Unit → Prop
  | sent : FileSent o frame after ({ o.put frame true with transferredFiles := after }, .ok ())
  | torn (e : Broke) : FileSent o frame after (o.put frame false, .error e)
  | not (serverSeq : ℤ) : o.serverSeq ≤ serverSeq →
    FileSent o frame after ({ o with serverSeq }, .error .failed)

theorem sendFileChunk_cases (o : Outbound) (id : ℤ) (body : Bytes) (w : Wrote) :
    o.sendFileChunk id body w = (o, .error .failed) ∨
    ∃ info, o.transferredFiles.lookup id = some info ∧ info.bytesTransferred + body.length ≤
    info.totalSize ∧
      FileSent o (chunkFrame o id info body) (o.transferredFiles.set id
        { info with
          bytesTransferred := info.bytesTransferred + body.length, chunks := info.chunks + 1 })
        (o.sendFileChunk id body w) := by
  unfold sendFileChunk
  split
  · exact Or.inl rfl
  · next info hinfo =>
    dsimp only
    split_ifs with hmax htotal hchunks
    · exact Or.inl rfl
    · exact Or.inl rfl
    · exact Or.inl rfl
    refine Or.inr ⟨info, hinfo, Int.not_lt.mp htotal, ?_⟩
    have hs := sends_encryptAndSend o (chunkFrame o id info body) w
    unfold chunkFrame at hs ⊢
    generalize o.encryptAndSend _ w = r at hs ⊢
    cases hs with
    | whole => exact .sent
    | torn e => exact .torn e
    | not n hn => exact .not n hn

theorem finishFile_cases (o : Outbound) (id : ℤ) (w : Wrote) :
    o.finishFile id w = (o, .error .failed) ∨
    ∃ info, o.transferredFiles.lookup id = some info ∧ info.bytesTransferred = info.totalSize ∧
      FileSent o (closeFrame o id info) (o.transferredFiles.remove id) (o.finishFile id w) := by
  unfold finishFile
  split
  · exact Or.inl rfl
  · next info hinfo =>
    split_ifs with hsize
    · exact Or.inl rfl
    refine Or.inr ⟨info, hinfo, not_not.mp hsize, ?_⟩
    dsimp only
    have hs := sends_encryptAndSend o (closeFrame o id info) w
    unfold closeFrame at hs ⊢
    generalize o.encryptAndSend _ w = r at hs ⊢
    cases hs with
    | whole => exact .sent
    | torn e => exact .torn e
    | not n hn => exact .not n hn

theorem chunkFrames_snoc (ms : List FileMetadata) (id : ℤ) (bs : List Bytes) (b : Bytes)
    (offset index : ℤ) : chunkFrames ms id offset index (bs ++ [b]) =
    chunkFrames ms id offset index bs ++
      [.file id (nameOf ms id) (totalOf ms id) (offset + bs.flatten.length) 0
        (index + bs.length) b] := by
  induction bs generalizing offset index with
  | nil => simp [chunkFrames]
  | cons c bs ih =>
    have hoff : offset + c.length + bs.flatten.length = offset + (c :: bs).flatten.length := by
      simp [add_assoc]
    have hidx : index + 1 + bs.length = index + (c :: bs).length := by
      rw [List.length_cons]
      omega
    rw [List.cons_append, chunkFrames, chunkFrames, ih, hoff, hidx, List.cons_append]

/-! ## The states of a send -/

/-- The receiver was told what comes and said yes, and nothing of it went out before. -/
structure Agreed (o : Outbound) (draws : ℕ → NewId × NewId) : Prop where
  fileIds : o.fileIds = (o.introduce draws).1.fileIds
  textId : o.textId = (o.introduce draws).1.textId
  split : ∃ pre post seq, o.log = pre ++ post ∧ dataOf pre = [] ∧ .heard .accepted ∈ pre ∧
    .sent (.sharing (o.introduce draws).2 false) (some seq) true ∈ pre

theorem Agreed.grow (h : Agreed o draws) (hlog : ∃ es, o'.log = o.log ++ es)
    (hpayload : o'.payload = o.payload) (hids : o'.fileIds = o.fileIds)
    (htext : o'.textId = o.textId) : Agreed o' draws := by
  obtain ⟨hids', htext', -, hframe⟩ := introduce_congr draws hpayload
  obtain ⟨pre, post, seq, hsplit, hdata, hyes, hintro⟩ := h.split
  obtain ⟨es, hes⟩ := hlog
  constructor
  · rw [hids, hids', h.fileIds]
  · rw [htext, htext', h.textId]
  · refine ⟨pre, post ++ es, seq, ?_, hdata, hyes, ?_⟩
    · rw [hes, hsplit, List.append_assoc]
    · rw [hframe]
      exact hintro

/-- What is on the wire, against what was introduced. -/
def Carries (s : Send) (draws : ℕ → NewId × NewId) : Prop :=
  match s.payload with
  | .files files =>
    dataOf s.outbound.log <+: plan (metadata files draws) s.pieces ∧ s.pieces.length ≤
      files.length ∧ ∀ i file bs, files[i]? = some file → s.pieces[i]? = some bs →
      i + 1 < s.pieces.length →
        bs.flatten.length = file.size
  | .text t => dataOf s.outbound.log <+: textFrames (draws 0).1 t

structure Kept (s : Send) : Prop where
  payload : s.outbound.payload = s.payload.wire
  ordered : Ordered s.outbound
  sent : dataOf s.outbound.log = [] ∨ ∃ draws, Agreed s.outbound draws ∧ Carries s draws
  fits : ∀ f ∈ dataOf s.outbound.log, Fits f
  pieces : ∀ bs ∈ s.pieces, ∀ b ∈ bs, 0 < b.length ∧ b.length ≤ ioChunkBytes
  progress : s.progress.sum ≤ wholeBytes s.outbound.log

structure Before (s : Send) : Prop where
  payload : s.outbound.payload = s.payload.wire
  ordered : Ordered s.outbound
  noCancel : NoCancel s.outbound.log
  data : dataOf s.outbound.log = []
  pieces : s.pieces = []
  progress : s.progress = []

/-- A file, as it was introduced and as it was chosen, and what is read of it. -/
abbrev Part := (FileMetadata × OutgoingFile) × List Bytes

def Part.id (d : Part) : ℤ := d.1.1.payloadId

def Part.len (d : Part) : ℕ := d.2.flatten.length

/-- The bytes and the chunks of the file that is being sent; there are none of any other. -/
def counted (cur : Option Part) (id : ℤ) : ℕ × ℕ :=
  match cur with
  | some d => if id = d.id then (d.len, d.2.length) else (0, 0)
  | none => (0, 0)

/-- The files that are through, the one that is being sent, if any, and those to come. -/
structure Going (o : Outbound) (progress : List ℕ) (files : List OutgoingFile)
    (draws : ℕ → NewId × NewId) (done : List Part) (cur : Option Part)
    (rest : List (FileMetadata × OutgoingFile)) : Prop where
  wire : o.payload = (SendPayload.files files).wire
  ordered : Ordered o
  late : o.state.late
  noCancel : NoCancel o.log
  agreed : Agreed o draws
  split : (metadata files draws).zip files = done.map Prod.fst ++ (cur.toList.map Prod.fst ++ rest)
  gone : ∀ d ∈ done, o.transferredFiles.lookup d.id = none
  nodup : (done.map Part.id).Nodup
  info : ∀ id info, o.transferredFiles.lookup id = some info →
    info = ⟨(counted cur id).1, totalOf (metadata files draws) id, (counted cur id).2⟩
  whole : ∀ f seq w, .sent f seq w ∈ o.log → f.isData → w = true
  exact : ∀ d ∈ done, d.len = d.1.2.size ∧ (d.len : ℤ) = totalOf (metadata files draws) d.id
  data : dataOf o.log = (done.map fun d => fileFrames (metadata files draws) d.id d.2).flatten ++
    cur.elim [] fun d => chunkFrames (metadata files draws) d.id 0 0 d.2
  fits : ∀ f ∈ dataOf o.log, Fits f
  bounds : ∀ d ∈ done ++ cur.toList, ∀ b ∈ d.2, 0 < b.length ∧ b.length ≤ ioChunkBytes
  reported : progress.sum = wholeBytes o.log
  bytes : progress.sum = ((done ++ cur.toList).map Part.len).sum

variable {progress : List ℕ} {done : List Part} {cur : Option Part}
  {rest : List (FileMetadata × OutgoingFile)}

theorem dataOf_grow {es : List Entry} (hlog : o'.log = o.log ++ es) (hdata : dataOf es = []) :
    dataOf o'.log = dataOf o.log := by
  rw [hlog, dataOf_append, hdata, List.append_nil]

theorem wholeBytes_append (log log' : List Entry) :
    wholeBytes (log ++ log') = wholeBytes log + wholeBytes log' := by
  rw [wholeBytes, List.map_append, List.sum_append]
  rfl

theorem wholeBytes_eq_zero {es : List Entry} (hdata : dataOf es = []) : wholeBytes es = 0 := by
  refine List.sum_eq_zero fun n hn => ?_
  obtain ⟨e, he, rfl⟩ := List.mem_map.mp hn
  have hnone := List.filterMap_eq_nil_iff.mp hdata e he
  rcases e with ⟨f, seq, whole⟩ | e
  · cases f <;> first | rfl | cases hnone
  · rfl

def bodyLen : Frame → ℕ
  | .file _ _ _ _ _ _ body | .text _ _ _ _ _ body => body.length
  | _ => 0

theorem wholeBytes_eq {log : List Entry}
    (h : ∀ f seq w, .sent f seq w ∈ log → f.isData → w = true) :
    wholeBytes log = ((dataOf log).map bodyLen).sum := by
  induction log with
  | nil => rfl
  | cons e log ih =>
    have ih' := ih fun f seq w hmem => h f seq w (List.mem_cons_of_mem _ hmem)
    rw [show e :: log = [e] ++ log from rfl, wholeBytes_append, dataOf_append, List.map_append,
      List.sum_append, ih']
    congr 1
    rcases e with ⟨f, seq, w⟩ | e
    · have hw := h f seq w List.mem_cons_self
      cases f with
      | file | text =>
        obtain rfl := hw rfl
        rfl
      | _ => rfl
    · rfl

theorem wholeBytes_grow {es : List Entry} (hlog : o'.log = o.log ++ es) (hdata : dataOf es = []) :
    wholeBytes o'.log = wholeBytes o.log := by
  rw [hlog, wholeBytes_append, wholeBytes_eq_zero hdata, Nat.add_zero]

theorem mem_dataOf {f : Frame} {seq : Option ℤ} {w : Bool} {log : List Entry}
    (h : .sent f seq w ∈ log) (hf : f.isData) : f ∈ dataOf log :=
  List.mem_filterMap.mpr ⟨_, h, by simp [hf]⟩

/-- The connection answers the receiver while the files are sent. -/
theorem Going.answers (h : Going o progress files draws done cur rest) (ha : Answers o o')
    (hlate : o'.state.late) : Going o' progress files draws done cur rest := by
  obtain ⟨es, hlog, hdata, hno⟩ := ha.log
  have hsame := dataOf_grow hlog hdata
  constructor
  · exact ha.payload.trans h.wire
  · exact ha.ordered h.ordered
  · exact hlate
  · exact hlog ▸ h.noCancel.append hno
  · exact h.agreed.grow ⟨es, hlog⟩ ha.payload ha.fileIds ha.textId
  · exact h.split
  · exact ha.transferredFiles ▸ h.gone
  · exact h.nodup
  · exact ha.transferredFiles ▸ h.info
  · intro f seq w hmem hf
    rw [hlog] at hmem
    rcases List.mem_append.mp hmem with hmem | hmem
    · exact h.whole f seq w hmem hf
    · simpa [hdata] using mem_dataOf hmem hf
  · exact h.exact
  · exact hsame.trans h.data
  · exact hsame ▸ h.fits
  · exact h.bounds
  · exact h.reported.trans (wholeBytes_grow hlog hdata).symm
  · exact h.bytes

/-- Frames that carry nothing do not matter to what is true at any time. -/
theorem Kept.grow (h : Kept s) (hlog : ∃ es, o.log = s.outbound.log ++ es ∧ dataOf es = [])
    (hpayload : o.payload = s.outbound.payload) (hids : o.fileIds = s.outbound.fileIds)
    (htext : o.textId = s.outbound.textId) (hordered : Ordered s.outbound → Ordered o) :
    Kept { s with outbound := o } := by
  obtain ⟨es, hes, hdata⟩ := hlog
  have hsame := dataOf_grow hes hdata
  constructor
  · exact hpayload.trans h.payload
  · exact hordered h.ordered
  · rcases h.sent with hnone | ⟨draws, hagreed, hcarries⟩
    · exact Or.inl (hsame.trans hnone)
    · refine Or.inr ⟨draws, hagreed.grow ⟨es, hes⟩ hpayload hids htext, ?_⟩
      unfold Carries at hcarries ⊢
      rw [hsame]
      exact hcarries
  · rw [hsame]
    exact h.fits
  · exact h.pieces
  · exact h.progress.trans (wholeBytes_grow hes hdata).ge

theorem Kept.answers (h : Kept s) (ha : Answers s.outbound o) : Kept { s with outbound := o } := by
  obtain ⟨es, hes, hdata, -⟩ := ha.log
  exact h.grow ⟨es, hes, hdata⟩ ha.payload ha.fileIds ha.textId ha.ordered

/-- Where the send is does not matter to what is true at any time. -/
theorem Kept.phase (h : Kept s) (phase : Phase) (tokenCancelled : Bool) :
    Kept { s with phase, tokenCancelled } :=
  ⟨h.payload, h.ordered, h.sent, h.fits, h.pieces, h.progress⟩

theorem zip_split {parts : List Part}
    (h : (metadata files draws).zip files = parts.map Prod.fst ++ rest) :
    metadata files draws = parts.map (·.1.1) ++ rest.map Prod.fst ∧
      files = parts.map (·.1.2) ++ rest.map Prod.snd := by
  have hlen := length_metadata files draws
  constructor
  · have hfst := List.map_fst_zip hlen.le
    rw [h] at hfst
    simpa [Function.comp_def] using hfst.symm
  · have hsnd := List.map_snd_zip hlen.ge
    rw [h] at hsnd
    simpa [Function.comp_def] using hsnd.symm

theorem plan_eq {parts : List Part}
    (h : (metadata files draws).zip files = parts.map Prod.fst ++ rest) :
    plan (metadata files draws) (parts.map Prod.snd) =
      (parts.map fun d => fileFrames (metadata files draws) d.id d.2).flatten := by
  obtain ⟨hms, -⟩ := zip_split h
  have hzip (g : FileMetadata → List Bytes → List Frame) :
      List.zipWith g (parts.map (·.1.1) ++ rest.map Prod.fst) (parts.map Prod.snd) =
        parts.map fun d => g d.1.1 d.2 := by
    clear h hms
    induction parts with
    | nil => simp
    | cons d parts ih => simpa using ih
  unfold plan
  generalize hM : metadata files draws = M at hms ⊢
  have hM' := hzip fun m bs => fileFrames M m.payloadId bs
  rw [← hms] at hM'
  rw [hM']
  rfl

theorem carries_of (parts : List Part) (d : Part) (hpayload : s.payload = .files files)
    (h : (metadata files draws).zip files = (parts ++ [d]).map Prod.fst ++ rest)
    (hexact : ∀ d ∈ parts, d.len = d.1.2.size) (hpieces : s.pieces = (parts ++ [d]).map Prod.snd)
    (hdata : dataOf s.outbound.log <+:
      ((parts ++ [d]).map fun d => fileFrames (metadata files draws) d.id d.2).flatten) :
      Carries s draws := by
  obtain ⟨-, hfiles⟩ := zip_split h
  unfold Carries
  rw [hpayload]
  refine ⟨?_, ?_, ?_⟩
  · rw [hpieces, plan_eq h]
    exact hdata
  · rw [hpieces, hfiles]
    simp
  · intro i file bs hfile hbs hi
    rw [hpieces, List.length_map, List.length_append, List.length_singleton] at hi
    have hlt : i < parts.length := by omega
    rw [hpieces, List.map_append, List.getElem?_append_left (by simpa using hlt),
      List.getElem?_map] at hbs
    rw [hfiles, List.map_append, List.append_assoc, List.getElem?_append_left (by simpa using hlt),
      List.getElem?_map] at hfile
    rw [List.getElem?_eq_getElem hlt] at hfile hbs
    obtain rfl := Option.some.inj hfile
    obtain rfl := Option.some.inj hbs
    exact hexact _ (List.getElem_mem hlt)

theorem chunkFrames_append (ms : List FileMetadata) (id : ℤ) (bs cs : List Bytes)
    (offset index : ℤ) :
    chunkFrames ms id offset index bs <+: chunkFrames ms id offset index (bs ++ cs) := by
  induction bs generalizing offset index with
  | nil => exact List.nil_prefix
  | cons b bs ih => exact List.cons_prefix_cons.mpr ⟨rfl, ih _ _⟩

/-- What is true while files are sent is true at any time; `more` is read and not yet sent. -/
theorem Going.kept (h : Going s.outbound s.progress files draws done cur rest)
    (more : List Bytes) (hpayload : s.payload = .files files)
    (hmore : ∀ b ∈ more, 0 < b.length ∧ b.length ≤ ioChunkBytes)
    (hpieces : s.pieces = done.map Prod.snd ++ cur.toList.map (·.2 ++ more)) : Kept s := by
  refine ⟨hpayload ▸ h.wire, h.ordered, ?_, h.fits, ?_, h.reported.le⟩
  · cases cur with
    | none =>
      rcases List.eq_nil_or_concat done with rfl | ⟨parts, d, rfl⟩
      · exact Or.inl (by simpa using h.data)
      · rw [List.concat_eq_append] at h hpieces
        have hsplit : (metadata files draws).zip files = (parts ++ [d]).map Prod.fst ++ rest := by
          simpa using h.split
        refine Or.inr ⟨draws, h.agreed, carries_of parts d hpayload hsplit ?_ ?_ ?_⟩
        · exact fun e he => (h.exact e (by simp [he])).1
        · simpa using hpieces
        · rw [h.data]
          simp
    | some d =>
      have hsplit : (metadata files draws).zip files =
          (done ++ [(d.1, d.2 ++ more)]).map Prod.fst ++ rest := by
        simpa using h.split
      refine Or.inr ⟨draws, h.agreed, carries_of done (d.1, d.2 ++ more) hpayload hsplit ?_ ?_ ?_⟩
      · exact fun e he => (h.exact e he).1
      · simpa using hpieces
      · rw [h.data]
        simp only [Option.elim_some, List.map_append, List.flatten_append]
        refine (List.prefix_append_right_inj _).mpr ?_
        simp only [List.map_cons, List.map_nil, List.flatten_cons, List.flatten_nil,
          List.append_nil]
        exact (chunkFrames_append _ _ _ _ _ _).trans (List.prefix_append ..)
  · intro bs hbs b hb
    rw [hpieces] at hbs
    rcases List.mem_append.mp hbs with hbs | hbs
    · obtain ⟨d, hd, rfl⟩ := List.mem_map.mp hbs
      exact h.bounds d (by simp [hd]) b hb
    · obtain ⟨d, hd, rfl⟩ := List.mem_map.mp hbs
      rcases List.mem_append.mp hb with hb | hb
      · exact h.bounds d (List.mem_append_right _ hd) b hb
      · exact hmore b hb

theorem Before.kept (h : Before s) : Kept s where
  payload := h.payload
  ordered := h.ordered
  sent := Or.inl h.data
  fits := by simp [h.data]
  pieces := by simp [h.pieces]
  progress := by simp [h.progress]

theorem Before.grow (h : Before s)
    (hlog : ∃ es, o.log = s.outbound.log ++ es ∧ dataOf es = [] ∧ NoCancel es)
    (hpayload : o.payload = s.outbound.payload) (hordered : Ordered s.outbound → Ordered o) :
    Before { s with outbound := o } := by
  obtain ⟨es, hes, hdata, hno⟩ := hlog
  constructor
  · exact hpayload.trans h.payload
  · exact hordered h.ordered
  · exact hes ▸ h.noCancel.append hno
  · exact (dataOf_grow hes hdata).trans h.data
  · exact h.pieces
  · exact h.progress

/-- The introduction is out, and the receiver's user is asked. -/
structure Asking (s : Send) : Prop extends Before s where
  introduced : s.outbound.Introduced
  late : s.outbound.state.late

theorem introduced_grow {es : List Entry} (h : o.Introduced) (hlog : o'.log = o.log ++ es)
    (hpayload : o'.payload = o.payload) (hids : o'.fileIds = o.fileIds)
    (htext : o'.textId = o.textId) (hfiles : o'.transferredFiles = o.transferredFiles) :
    o'.Introduced := by
  obtain ⟨draws, seq, hi, ht, hf, hmem⟩ := h
  obtain ⟨hids', htext', hfiles', hframe⟩ := introduce_congr draws hpayload
  refine ⟨draws, seq, ?_, ?_, ?_, ?_⟩
  · rw [hids', ← hi, hids]
  · rw [htext', ← ht, htext]
  · rw [hfiles', ← hf, hfiles]
  · rw [hframe, hlog]
    exact List.mem_append_left _ hmem

theorem Before.phase (h : Before s) (phase : Phase) (tokenCancelled : Bool) :
    Before { s with phase, tokenCancelled } :=
  ⟨h.payload, h.ordered, h.noCancel, h.data, h.pieces, h.progress⟩

theorem Asking.phase (h : Asking s) (phase : Phase) (tokenCancelled : Bool) :
    Asking { s with phase, tokenCancelled } :=
  ⟨h.toBefore.phase phase tokenCancelled, h.introduced, h.late⟩

theorem Asking.answers (h : Asking s) (ha : Answers s.outbound o) (hlate : o.state.late) :
    Asking { s with outbound := o } := by
  obtain ⟨es, hes, -⟩ := ha.log
  exact ⟨h.toBefore.grow ha.log ha.payload ha.ordered,
    introduced_grow h.introduced hes ha.payload ha.fileIds ha.textId ha.transferredFiles, hlate⟩

theorem Asking.agreed (h : Asking s) (hyes : .heard .accepted ∈ s.outbound.log) :
    ∃ draws, Agreed s.outbound draws ∧
      s.outbound.transferredFiles = (s.outbound.introduce draws).1.transferredFiles := by
  obtain ⟨draws, seq, hids, htext, hfiles, hmem⟩ := h.introduced
  exact ⟨draws, ⟨hids, htext, s.outbound.log, [], seq, by simp, h.data, hyes, hmem⟩, hfiles⟩

/-! ## From one state to the next -/

theorem going_begin (h : Asking s) (hyes : .heard .accepted ∈ s.outbound.log)
    (hpayload : s.payload = .files files) :
    ∃ draws, Going s.outbound s.progress files draws [] none ((metadata files draws).zip files) ∧
      s.outbound.fileIds = (metadata files draws).map (·.payloadId) := by
  obtain ⟨draws, hagreed, htable⟩ := h.agreed hyes
  have hwire : s.outbound.payload = (SendPayload.files files).wire := hpayload ▸ h.payload
  obtain ⟨-, hids, hfiles⟩ := introduce_files hwire draws
  have hzero : s.progress.sum = 0 := by simp [h.progress]
  refine ⟨draws, ?_, hagreed.fileIds.trans hids⟩
  constructor
  · exact hwire
  · exact h.ordered
  · exact h.late
  · exact h.noCancel
  · exact hagreed
  · simp
  · simp
  · simp
  · intro id info hinfo
    rw [htable, hfiles, lookup_introduced] at hinfo
    obtain ⟨m, hm, rfl⟩ := Option.map_eq_some_iff.mp hinfo
    simp [totalOf, hm, counted]
  · intro f seq w hmem hf
    simpa [h.data] using mem_dataOf hmem hf
  · simp
  · simpa using h.data
  · simp [h.data]
  · simp
  · rw [hzero, wholeBytes_eq_zero h.data]
  · simpa using hzero

theorem Going.open {m : FileMetadata} {f : OutgoingFile}
    (h : Going o progress files draws done none ((m, f) :: rest)) :
    Going o progress files draws done (some ((m, f), [])) rest where
  wire := h.wire
  ordered := h.ordered
  late := h.late
  noCancel := h.noCancel
  agreed := h.agreed
  split := by simpa using h.split
  gone := h.gone
  nodup := h.nodup
  info id info hinfo := by
    have hnew : counted (some ((m, f), [])) id = (0, 0) := by
      simp [counted, Part.len]
    rw [hnew]
    exact h.info id info hinfo
  whole := h.whole
  exact := h.exact
  data := by simpa [chunkFrames] using h.data
  fits := h.fits
  bounds e he b hb := by
    rcases List.mem_append.mp he with he | he
    · exact h.bounds e (by simp [he]) b hb
    · obtain rfl := List.mem_singleton.mp he
      simp at hb
  reported := h.reported
  bytes := by simpa [Part.len] using h.bytes

section Put

variable {f : Frame} {w : Bool}

theorem dataOf_put (hf : f.isData) : dataOf (o.put f w).log = dataOf o.log ++ [f] := by
  rw [put, dataOf_append]
  simp [dataOf, hf]

theorem fits_put (h : ∀ g ∈ dataOf o.log, Fits g) (hf : Fits f) :
    ∀ g ∈ dataOf (o.put f w).log, Fits g := by
  intro g hg
  rw [put, dataOf_append] at hg
  rcases List.mem_append.mp hg with hg | hg
  · exact h g hg
  · obtain ⟨e, he, heg⟩ := List.mem_filterMap.mp hg
    rw [List.mem_singleton.mp he] at heg
    obtain ⟨-, hfg⟩ := Option.ite_none_right_eq_some.mp heg
    exact Option.some.inj hfg ▸ hf

theorem agreed_put (h : Agreed o draws) : Agreed (o.put f w) draws := h.grow ⟨_, rfl⟩ rfl rfl rfl

theorem noCancel_put (h : NoCancel o.log) (hf : f.isData) : NoCancel (o.put f w).log := by
  refine h.append fun g hg => ?_
  obtain rfl : g = f := by simpa [framesOf] using hg
  cases g with
  | file | text => rfl
  | _ => cases hf

theorem whole_put (h : ∀ f seq w, .sent f seq w ∈ o.log → f.isData → w = true) :
    ∀ g seq w, .sent g seq w ∈ (o.put f true).log → g.isData → w = true := by
  intro g seq w hmem hg
  rcases List.mem_append.mp hmem with hmem | hmem
  · exact h g seq w hmem hg
  · simp at hmem
    exact hmem.2.2

end Put

variable {d : Part} {body : Bytes}

/-- The frame of the next piece is that of the pieces with one more. -/
theorem Going.chunkFrame_eq (h : Going o progress files draws done (some d) rest)
    {info : InternalFileInfo} (hinfo : o.transferredFiles.lookup d.id = some info) :
    chunkFrames (metadata files draws) d.id 0 0 (d.2 ++ [body]) =
      chunkFrames (metadata files draws) d.id 0 0 d.2 ++ [chunkFrame o d.id info body] := by
  have hids : o.fileIds = (metadata files draws).map (·.payloadId) :=
    h.agreed.fileIds.trans (introduce_files h.wire draws).2.1
  have hi := h.info d.id info hinfo
  rw [counted, if_pos rfl] at hi
  rw [chunkFrames_snoc, chunkFrame, fileName_eq h.wire hids, hi]
  simp [Part.len]

/-- The book-keeping of files that are through is gone, so none of them is the one at hand. -/
theorem Going.id_ne (h : Going o progress files draws done (some d) rest) {info : InternalFileInfo}
    (hinfo : o.transferredFiles.lookup d.id = some info) : ∀ e ∈ done, e.id ≠ d.id := by
  intro e he heq
  have hnone := h.gone e he
  rw [heq, hinfo] at hnone
  cases hnone

theorem Going.chunk (h : Going o progress files draws done (some d) rest) {info : InternalFileInfo}
    (hinfo : o.transferredFiles.lookup d.id = some info)
    (hle : info.bytesTransferred + body.length ≤ info.totalSize)
    (hbody : 0 < body.length ∧ body.length ≤ ioChunkBytes) :
    Going { o.put (chunkFrame o d.id info body) true with
        transferredFiles := o.transferredFiles.set d.id
          { info with
            bytesTransferred := info.bytesTransferred + body.length, chunks := info.chunks + 1 } }
      (progress ++ [body.length]) files draws done (some (d.1, d.2 ++ [body])) rest := by
  have hid : Part.id (d.1, d.2 ++ [body]) = d.id := rfl
  have hlen : Part.len (d.1, d.2 ++ [body]) = d.len + body.length := by simp [Part.len]
  have hi := h.info d.id info hinfo
  rw [counted, if_pos rfl] at hi
  have hwhole : wholeBytes (o.put (chunkFrame o d.id info body) true).log =
      wholeBytes o.log + body.length := by
    rw [put, wholeBytes_append]
    simp [wholeBytes, chunkFrame]
  constructor
  · exact h.wire
  · exact ⟨(h.ordered.put _ _).increasing, (h.ordered.put _ _).le⟩
  · exact h.late
  · exact noCancel_put h.noCancel rfl
  · exact h.agreed.grow ⟨_, rfl⟩ rfl rfl rfl
  · exact h.split
  · intro e he
    simp only [Table.lookup_set]
    rw [if_neg (h.id_ne hinfo e he)]
    exact h.gone e he
  · exact h.nodup
  · intro id info' hinfo'
    simp only [Table.lookup_set] at hinfo'
    by_cases heq : id = d.id
    · rw [if_pos heq] at hinfo'
      obtain rfl := Option.some.inj hinfo'
      rw [counted, hid, if_pos heq, heq, hlen, hi]
      simp
    · rw [if_neg heq] at hinfo'
      have hold := h.info id info' hinfo'
      rw [counted, if_neg heq] at hold
      rw [counted, hid, if_neg heq]
      exact hold
  · exact whole_put h.whole
  · exact h.exact
  · refine (dataOf_put rfl).trans ?_
    rw [h.data, Option.elim_some, Option.elim_some, hid, h.chunkFrame_eq hinfo, List.append_assoc]
  · exact fits_put h.fits hle
  · intro e he b hb
    rcases List.mem_append.mp he with he | he
    · exact h.bounds e (by simp [he]) b hb
    · obtain rfl := List.mem_singleton.mp he
      rcases List.mem_append.mp hb with hb | hb
      · exact h.bounds d (by simp) b hb
      · rw [List.mem_singleton.mp hb]
        exact hbody
  · rw [List.sum_append, h.reported]
    exact hwhole.symm ▸ by simp
  · rw [List.sum_append, h.bytes]
    simp [hlen, add_assoc]

/-- The frame after the last piece of a file that was sent to its end. -/
theorem Going.closeFrame_eq (h : Going o progress files draws done (some d) rest)
    {info : InternalFileInfo} (hinfo : o.transferredFiles.lookup d.id = some info)
    (hend : info.bytesTransferred = info.totalSize) :
    (d.len : ℤ) = totalOf (metadata files draws) d.id ∧
      fileFrames (metadata files draws) d.id d.2 =
        chunkFrames (metadata files draws) d.id 0 0 d.2 ++ [closeFrame o d.id info] := by
  have hids : o.fileIds = (metadata files draws).map (·.payloadId) :=
    h.agreed.fileIds.trans (introduce_files h.wire draws).2.1
  have hi := h.info d.id info hinfo
  rw [counted, if_pos rfl] at hi
  have htotal : (d.len : ℤ) = totalOf (metadata files draws) d.id := by simpa [hi] using hend
  refine ⟨htotal, ?_⟩
  have hcond : (d.2.flatten.length : ℤ) = totalOf (metadata files draws) d.id := htotal
  rw [fileFrames, if_pos hcond, lastFrame, closeFrame, fileName_eq h.wire hids, hi]

theorem Going.close (h : Going o progress files draws done (some d) rest) {info : InternalFileInfo}
    (hinfo : o.transferredFiles.lookup d.id = some info)
    (hend : info.bytesTransferred = info.totalSize) (hsize : d.len = d.1.2.size) :
    Going { o.put (closeFrame o d.id info) true with
      transferredFiles := o.transferredFiles.remove d.id } progress files draws
        (done ++ [d]) none rest := by
  obtain ⟨htotal, hframes⟩ := h.closeFrame_eq hinfo hend
  have hwhole : wholeBytes (o.put (closeFrame o d.id info) true).log = wholeBytes o.log := by
    rw [put, wholeBytes_append]
    simp [wholeBytes, closeFrame]
  constructor
  · exact h.wire
  · exact ⟨(h.ordered.put _ _).increasing, (h.ordered.put _ _).le⟩
  · exact h.late
  · exact noCancel_put h.noCancel rfl
  · exact h.agreed.grow ⟨_, rfl⟩ rfl rfl rfl
  · simpa using h.split
  · intro e he
    simp only [Table.lookup_remove]
    rcases List.mem_append.mp he with he | he
    · rw [if_neg (h.id_ne hinfo e he)]
      exact h.gone e he
    · rw [List.mem_singleton.mp he, if_pos rfl]
  · rw [List.map_append, List.nodup_append]
    refine ⟨h.nodup, by simp, ?_⟩
    rintro _ ha _ hb
    obtain ⟨e, he, rfl⟩ := List.mem_map.mp ha
    obtain rfl : _ = d.id := by simpa using hb
    exact h.id_ne hinfo e he
  · intro id info' hinfo'
    simp only [Table.lookup_remove] at hinfo'
    by_cases heq : id = d.id
    · simp [heq] at hinfo'
    · rw [if_neg heq] at hinfo'
      have hold := h.info id info' hinfo'
      rw [counted, if_neg heq] at hold
      exact hold
  · exact whole_put h.whole
  · intro e he
    rcases List.mem_append.mp he with he | he
    · exact h.exact e he
    · rw [List.mem_singleton.mp he]
      exact ⟨hsize, htotal⟩
  · refine (dataOf_put rfl).trans ?_
    rw [h.data]
    simp [hframes]
  · exact fits_put h.fits (by simp [closeFrame, Fits])
  · simpa using h.bounds
  · exact h.reported.trans hwhole.symm
  · simpa using h.bytes

end Sukkula.QuickShare.Send
