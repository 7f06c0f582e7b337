import Sukkula.Inbox.Commit

/-! # What a received file does to the disk

The whole life of an incoming file, for every way its calls can end: what is in
the target when it is over, and that nothing else is left. With another process
about, the same holds of the target as long as no new file gets the number of a
copy that is still to be placed.
-/

namespace Sukkula.Inbox

open Str Name Machine Transition

variable {Digest : Type} [DecidableEq Digest] {sha256 : Bytes → Digest} {w : Setting} {s : Disk}
  {name : SafeName} {expected : Option Digest} {chunks : List Bytes} {commits : Bool}

def Received (w : Setting) (name : SafeName) (r : Outcome) (s : Disk) : Prop :=
  match r with
  | .committed (.ok saved) => ∃ n o, n < maxNameAttempts ∧ saved = ⟨name.numbered (.ofNat n),
      (.target, (name.numbered (.ofNat n)).val), w.declared⟩ ∧ w.entries saved.name.val = none ∧
      Tried w name n s ∧ w.IsWhole o s ∧
      Books w [] (Function.update w.entries saved.name.val (some o)) s
  | _ => Books w [] w.entries s

theorem lasts_true : Lasts w fun _ => True :=
  ⟨fun _ => ⟨.const True, fun _ _ => trivial, fun _ _ _ => trivial⟩, fun _ _ _ => trivial⟩

theorem lasts_placed {o n : ℕ} : Lasts w fun s => w.IsWhole o s ∧ Tried w name n s where
  frames k := ⟨Setting.IsWhole.frames (k := k) |>.steady.and Tried.steady,
    fun s h => ⟨(Setting.IsWhole.frames (k := k)).flag s h.1, h.2⟩,
    fun s x h => ⟨Setting.IsWhole.frames.remove s x h.1, h.2⟩⟩
  close _ _ h := ⟨h.1.congr le_rfl rfl, h.2⟩

theorem receive_spec (hW : chunks.flatten.length = w.declared →
      (∀ d, expected = some d → sha256 chunks.flatten = d) → w.Whole chunks.flatten) :
    Spec w (receive sha256 w.staging name w.declared expected chunks commits)
      (Books w [] w.entries) (Received w name) := by
  refine Spec.bind beginFile_spec fun r => ?_
  rcases r with e | inc
  · exact Spec.ret Books.steady (fun _ h => h.inv) fun _ h => h
  rintro s ⟨f, hfits, hf, hhash, hwritten, hrec⟩
  have htally : Tallied w name expected f [] inc s := ⟨hfits, hrec, fun _ => ⟨hhash, hwritten⟩⟩
  refine Spec.bind writes_spec (fun inc => ?_) s htally
  rw [List.nil_append]
  split_ifs with hc
  · refine Spec.bind (commit_spec hW) fun r => ?_
    obtain ⟨res, inc'⟩ := r
    rcases res with e | saved
    · refine (Spec.bind (drop_spec lasts_true) fun _ => ?_).pre fun s hs => ⟨hs, trivial⟩
      exact Spec.ret (Books.steady.and (.const True)) (fun _ h => h.1.inv) fun _ h => h.1
    · rintro s ⟨n, o, hn, hsaved, h0, htried, hwhole, hleav⟩
      refine Spec.bind (drop_spec (@lasts_placed _ name o n)) (fun _ => ?_) s
        ⟨hleav, hwhole, htried⟩
      exact Spec.ret (Books.steady.and ((lasts_placed).frames (.target, [])).steady)
        (fun _ h => h.1.inv) fun s h => ⟨n, o, hn, hsaved, h0, h.2.2, h.2.1, h.1⟩
  · refine (Spec.bind (drop_spec lasts_true) fun _ => ?_).pre fun s hs => ⟨hs.leaving, trivial⟩
    exact Spec.ret (Books.steady.and (.const True)) (fun _ h => h.1.inv) fun _ h => h.1

def life (s₀ : Disk) (h₀ : Untouched s₀) (rival : Prop) (sha256 : Bytes → Digest)
    (staging : Staging) (size : ℕ) (expected : Option Digest) (chunks : List Bytes) : Setting :=
  ⟨s₀, h₀, rival, staging, size, fun b => b = chunks.flatten ∧ b.length = size ∧
    ∀ d, expected = some d → sha256 b = d⟩

theorem Books.init : Books w [] w.entries w.start := by
  refine ⟨[], ⟨w.untouched.wf, le_rfl, rfl, fun o ho => ?_, fun _ _ => rfl,
    Or.inl rfl, fun _ => ?_⟩, fun _ => rfl⟩
  · simp [w.untouched.ours o] at ho
  · exact ⟨fun _ _ _ => rfl, fun _ _ => rfl, by simp, by simp, fun _ => Or.inl rfl⟩

section Runs

variable {s₀ : Disk} {staging : Staging} {size : ℕ} {ls : List (Label Choice Act)}
  {p : Prog Ans Outcome}

theorem receive_run (h₀ : Untouched s₀) (rival : Prop)
    (hG : Along machine.step (fun c l => Permits rival c.2 l)
      (receive sha256 staging name size expected chunks commits, s₀) ls)
    (hrun : exec machine.step (receive sha256 staging name size expected chunks commits, s₀) ls =
      some (p, s)) :
    Inv (life s₀ h₀ rival sha256 staging size expected chunks) s ∧ ∀ r, p = .ret r →
      Received (life s₀ h₀ rival sha256 staging size expected chunks) name r s := by
  have h := (receive_spec (w := life s₀ h₀ rival sha256 staging size expected chunks)
    (fun hl hd => ⟨rfl, hl, hd⟩) s₀ Books.init).of_exec hG hrun
  refine ⟨h.inv, ?_⟩
  rintro r rfl
  exact h.result

def Silent : Label Choice Act → Prop
  | .answer _ | .env (.land ..) | .env (.lose _) => True
  | _ => False

theorem permits_of_silent {s : Disk} {l : Label Choice Act} (h : Silent l) : Permits False s l := by
  cases l with
  | answer => trivial
  | env a => cases a <;> first | exact h.elim | trivial

theorem along_permits_of_silent (hq : ∀ l ∈ ls, Silent l) {c : Prog Ans Outcome × Disk} :
    Along machine.step (fun c l => Permits False c.2 l) c ls :=
  (along_of_forall hq).mono fun _ _ hl => permits_of_silent hl

/-- The disk, but for the target's own files: `.partial` may have been made, and a file stays where
the `fstat` right after it was made fails, or the `statat` of the copy's destructor. -/
structure Restored (s₀ s : Disk) : Prop where
  copies : s.lookup (.target, stagingDir) = s₀.lookup (.target, stagingDir) ∨
    s₀.lookup (.target, stagingDir) = none ∧
      ∃ o, s.lookup (.target, stagingDir) = some o ∧ s.kind o = .directory
  nodes : ∀ o < s₀.next, s.node o = s₀.node o
  staging : s.statFailed = false → ∀ k : Key, k.1 ≠ .target → s.lookup k = s₀.lookup k

theorem Books.restored {T : Str → Option ℕ} (h : Books w [] T s) (hq : ¬ w.rival) :
    Restored w.start s := by
  obtain ⟨Z, hB, hZ⟩ := h
  refine ⟨?_, (hB.quiet hq).nodes, fun hs k hk => (hB.quiet hq).links k hk (by simp [hZ hs])⟩
  exact hB.copies.imp_right fun ⟨h0, o, ho, hd⟩ => ⟨h0, o, ho, hd.2⟩

theorem Books.lookup_target {T : Str → Option ℕ} (h : Books w [] T s) {n : Str}
    (hn : n ≠ stagingDir) : s.lookup (.target, n) = T n :=
  h.elim fun _ hB => hB.1.target n hn

/-- With no other process about, a file is placed whole, under the first free number, or not at
all, and everything else is as it was. -/
theorem received_whole_or_not_at_all (h₀ : Untouched s₀) (hq : ∀ l ∈ ls, Silent l)
    (hrun : exec machine.step (receive sha256 staging name size expected chunks commits, s₀) ls =
      some (p, s)) :
    (∀ o, (s.node o).ours → (s.node o).data.length ≤ size) ∧
    ∀ r, p = .ret r → Restored s₀ s ∧
      match r with
      | .committed (.ok saved) => ∃ n < maxNameAttempts, ∃ o,
          saved.name = name.numbered (.ofNat n) ∧ saved.size = size ∧
          s₀.lookup (.target, saved.name.val) = none ∧
          (s.drewTaken = false →
            ∀ m < n, s₀.lookup (.target, (name.numbered (.ofNat m)).val) ≠ none) ∧
          s.lookup (.target, saved.name.val) = some o ∧ s.kind o = .regular ∧
          (s.node o).data = chunks.flatten ∧ chunks.flatten.length = size ∧
          (∀ d, expected = some d → sha256 chunks.flatten = d) ∧
          ∀ n', n' ≠ saved.name.val → n' ≠ stagingDir →
            s.lookup (.target, n') = s₀.lookup (.target, n')
      | _ => ∀ n', n' ≠ stagingDir → s.lookup (.target, n') = s₀.lookup (.target, n') := by
  obtain ⟨⟨X, T, hB⟩, hend⟩ := receive_run h₀ False (along_permits_of_silent hq) hrun
  refine ⟨fun o ho => (Nat.le_add_right _ _).trans (hB.sized o ho), fun r hr => ?_⟩
  have hrec := hend r hr
  match r with
  | .committed (.ok saved) =>
    obtain ⟨n, o, hn, rfl, h0, htried, hwhole, hbooks⟩ := hrec
    obtain ⟨hdata, hlen, hdig⟩ := hwhole.whole
    have hne := SafeName.ne_dot_cons (name.numbered (.ofNat n)) "partial".toList
    refine ⟨hbooks.restored id, n, hn, o, rfl, rfl, h0, fun hdrew => ?_, ?_, hwhole.regular, hdata,
      hdata ▸ hlen, fun d hd => hdata ▸ hdig d hd, fun n' hn' hs' => ?_⟩
    · exact htried.resolve_right (by simp [hdrew])
    · rw [hbooks.lookup_target hne, Function.update_self]
    · rw [hbooks.lookup_target hs', Function.update_of_ne hn']
      rfl
  | .committed (.error e) | .refused e | .dropped =>
    exact ⟨Books.restored hrec id, fun n' hn' => Books.lookup_target hrec hn'⟩

end Runs

def blank : Disk :=
  ⟨⟨0, fun _ => .new (0, 0) .regular [] false, [], []⟩, fun _ => false, false, false⟩

theorem untouched_blank : Untouched blank := by
  refine ⟨⟨fun o ho => ?_, fun o o' ho => ?_⟩, fun _ => rfl, fun _ => rfl⟩ <;>
    simp [blank, Files.Live, Inode.new] at ho

def nameA : SafeName := .ofRaw "a".toList

def savedA (n : UInt32) : Saved := ⟨nameA.numbered n, (.target, (nameA.numbered n).val), 0⟩

def emptyDigest : Bytes :=
  [0xe3, 0xb0, 0xc4, 0x42, 0x98, 0xfc, 0x1c, 0x14, 0x9a, 0xfb, 0xf4, 0xc8, 0x99, 0x6f, 0xb9, 0x24,
   0x27, 0xae, 0x41, 0xe4, 0x64, 0x9b, 0x93, 0x4c, 0xa4, 0x95, 0x99, 0x1b, 0x78, 0x52, 0xb8, 0x55]

def receiveEmpty (staging : Staging) : Prog Ans Outcome :=
  receive (fun _ => emptyDigest) staging nameA 0 (some emptyDigest) [] true

theorem savedA_zero : (savedA 0).name.val = "a".toList := by decide +kernel

def answers (cs : List Choice) : List (Label Choice Act) := cs.map .answer

def drawn (x : UInt8) : Choice := .draws (List.replicate 16 x)

def zeroPart : Str := hexEncode (List.replicate 16 0) ++ partSuffix

/-- `open_dirs` with a staging directory of its own, and a name for the staging file. -/
def opening : List Choice := [.done, .mode 0o700, .done, .mode 0o700, drawn 0]

/-- `begin`, and `commit` up to where the file is placed. -/
def staged : List Choice := opening ++ [.numbered (0, 1), .done] ++ List.replicate 3 .done

def linked : List Choice := List.replicate 5 .done

/-- No link is possible, so `.partial` is made, and a copy in it. -/
def copied : List Choice :=
  [.done, .fails .xdev, .done, .numbered (0, 2), .done, .mode 0o700, drawn 0, .numbered (0, 3)] ++
    List.replicate 6 .done

/-- The copy is placed, and everything is dropped. -/
def put : List Choice := List.replicate 6 .done

/-- The SHA-256 of `abc`. -/
def abcDigest : Bytes :=
  [0xba, 0x78, 0x16, 0xbf, 0x8f, 0x01, 0xcf, 0xea, 0x41, 0x41, 0x40, 0xde, 0x5d, 0xae, 0x22, 0x23,
   0xb0, 0x03, 0x61, 0xa3, 0x96, 0x17, 0x7a, 0x9c, 0xb4, 0x10, 0xff, 0x61, 0xf2, 0x00, 0x15, 0xad]

/-- `abc` in two chunks. -/
def abcChunks : List Bytes := [[0x61], [0x62, 0x63]]

def receiveAbc : Prog Ans Outcome :=
  receive (fun _ => abcDigest) .apart nameA 3 (some abcDigest) abcChunks true

def savedAbc : Saved := ⟨nameA.numbered 0, (.target, (nameA.numbered 0).val), 3⟩

/-- The first byte is on the disk before the second chunk is there; the file is linked. -/
def writtenAbc : List (Label Choice Act) :=
  answers (opening ++ [.numbered (0, 1), .done, .done]) ++ [.env (.land 0 1)] ++
    answers (List.replicate 9 .done)

theorem received_whole_linked : ∃ s, exec machine.step (receiveAbc, blank) writtenAbc =
      some (.ret (.committed (.ok savedAbc)), s) ∧ Restored blank s ∧
    s.statFailed = false ∧ ∃ o, s.lookup (.target, "a".toList) = some o ∧
      (s.node o).data = [0x61, 0x62, 0x63] := by
  have hrun : ∃ s, exec machine.step (receiveAbc, blank) writtenAbc =
      some (.ret (.committed (.ok savedAbc)), s) ∧ s.statFailed = false :=
    exec_ret_of_any (by decide +kernel)
  obtain ⟨s, hs, hstat⟩ := hrun
  have hq : ∀ l ∈ writtenAbc, Silent l := by
    simp only [writtenAbc, answers, List.forall_mem_append, List.forall_mem_map]
    simp [Silent]
  obtain ⟨hrestored, n, -, o, -, -, -, -, ho, -, hdata, -⟩ :=
    (received_whole_or_not_at_all untouched_blank hq hs).2 _ rfl
  have hname : savedAbc.name.val = "a".toList := savedA_zero
  exact ⟨s, hs, hrestored, hstat, o, hname ▸ ho, hdata⟩

/-- The choices of a run in `.partial`, where nothing can be linked and the first copy is to have
the name of the staging file. -/
def clashing : List Choice :=
  [.done, .mode 0o700, .done, .numbered (0, 2), .done, .mode 0o700, drawn 0, .numbered (0, 1),
    .done] ++ List.replicate 3 .done ++
  [.done, .fails .perm, .done, .mode 0o700, drawn 0, .numbered (0, 3)] ++
  [.done, .fails .perm, .done, .mode 0o700, drawn 1, .numbered (0, 3)] ++
  List.replicate 6 .done ++ put

/-- The fallback adds `.partial` to the target, a failing `fstat` leaves the staging file, and a
random name in use already passes for a taken destination. -/
theorem received_with_traces :
    (∃ s, exec machine.step (receiveEmpty .apart, blank) (answers (staged ++ copied ++ put)) =
        some (.ret (.committed (.ok (savedA 0))), s) ∧
      s.lookup (.target, "a".toList) ≠ none ∧ s.lookup (.target, stagingDir) ≠ none) ∧
    (∃ s, exec machine.step (receiveEmpty .apart, blank)
        (answers (opening ++ [.numbered (0, 1), .fails (.other 5), .done])) =
          some (.ret (.refused (.failed (.io (.os (.other 5))))), s) ∧
      s.lookup (.staging, zeroPart) ≠ none) ∧
    ∃ s, exec machine.step (receiveEmpty .nested, blank) (answers clashing) =
        some (.ret (.committed (.ok (savedA 1))), s) ∧
      s.lookup (.target, "a".toList) = none ∧ s.lookup (.target, "a (1)".toList) ≠ none := by
  refine ⟨?_, ?_, ?_⟩ <;> exact exec_ret_of_any (m := machine) (by decide +kernel)

section Rivals

variable {s₀ : Disk} {staging : Staging} {size : ℕ} {ls : List (Label Choice Act)}

/-- Somebody else removes, links and makes entries of the staging directories. They leave the
target's own entries alone, and do not write to this file's inodes. -/
def Meddles (s : Disk) : Label Choice Act → Prop
  | .answer _ | .env (.land ..) | .env (.lose _) => True
  | .env (.unlink k) | .env (.link _ k) | .env (.create k ..) => k.1 ≠ .target
  | .env (.alter o _) => (s.node o).ours = false

/-- No file of somebody else gets the number of one that this file made and has not removed. -/
def KeepsNumbers (s : Disk) : Label Choice Act → Prop
  | .env (.create _ id _ _) =>
    ∀ o < s.next, (s.node o).ours → (s.node o).removed = false → id ≠ (s.node o).id
  | _ => True

theorem permits_of_meddles {l : Label Choice Act} (h : Meddles s l) (hn : KeepsNumbers s l) :
    Permits True s l := by
  cases l with
  | answer => trivial
  | env a =>
    cases a with
    | land | lose => trivial
    | unlink | link | alter => exact ⟨trivial, h⟩
    | create => exact ⟨trivial, h, hn⟩

/-- Whatever somebody else does to the staging directories, only this file's own inodes get into
the target, as long as their numbers stay theirs. -/
theorem target_gains_only_ours {r : Except (Stop InboxError) Saved} (h₀ : Untouched s₀)
    (hG : Along machine.step (fun c l => Meddles c.2 l ∧ KeepsNumbers c.2 l)
      (receive sha256 staging name size expected chunks commits, s₀) ls)
    (hrun : exec machine.step (receive sha256 staging name size expected chunks commits, s₀) ls =
      some (.ret (.committed r), s)) :
    (∀ n o, s.lookup (.target, n) = some o → s₀.lookup (.target, n) = some o ∨
      (s.node o).ours ∨ n = stagingDir ∧ s.kind o = .directory) ∧
    ∀ saved, r = .ok saved → ∃ o, s.lookup (.target, saved.name.val) = some o ∧
      s₀.lookup (.target, saved.name.val) = none ∧ (s.node o).ours ∧ s.kind o = .regular ∧
      (s.node o).data = chunks.flatten := by
  have hend := (receive_run h₀ True (hG.mono fun c l h => permits_of_meddles h.1 h.2) hrun).2 _ rfl
  have hcopies {T : Str → Option ℕ}
      (hb : Books (life s₀ h₀ True sha256 staging size expected chunks) [] T s) {o : ℕ}
      (ho : s.lookup (.target, stagingDir) = some o) :
      s₀.lookup (.target, stagingDir) = some o ∨ s.kind o = .directory := by
    obtain ⟨Z, hB, -⟩ := hb
    rcases hB.copies with h | ⟨-, o', ho', -, hd⟩
    · exact Or.inl (h.symm.trans ho)
    · exact Or.inr (Option.some.inj (ho'.symm.trans ho) ▸ hd)
  rcases r with e | saved
  · refine ⟨fun n o ho => ?_, fun saved h => nomatch h⟩
    by_cases hn : n = stagingDir
    · subst hn
      exact (hcopies hend ho).imp_right fun hd => Or.inr ⟨rfl, hd⟩
    · exact Or.inl ((Books.lookup_target hend hn).symm.trans ho)
  · obtain ⟨n', o', hn', rfl, h0, -, hwhole, hbooks⟩ := hend
    have hne := SafeName.ne_dot_cons (name.numbered (.ofNat n')) "partial".toList
    refine ⟨fun n o ho => ?_, ?_⟩
    · by_cases hn : n = stagingDir
      · subst hn
        exact (hcopies hbooks ho).imp_right fun hd => Or.inr ⟨rfl, hd⟩
      rw [hbooks.lookup_target hn] at ho
      by_cases hs : n = (name.numbered (.ofNat n')).val
      · subst hs
        rw [Function.update_self] at ho
        exact Or.inr (Or.inl (Option.some.inj ho ▸ hwhole.ours))
      · rw [Function.update_of_ne hs] at ho
        exact Or.inl ho
    · rintro saved h
      obtain rfl := Except.ok.inj h
      refine ⟨o', ?_, h0, hwhole.ours, hwhole.regular, hwhole.whole.1⟩
      rw [hbooks.lookup_target hne, Function.update_self]

end Rivals

/-- Somebody else removes the staging file's entry as soon as it is linked. -/
def stolen : List (Label Choice Act) :=
  answers (staged ++ List.replicate 3 .done) ++ [.env (.unlink (.staging, zeroPart))] ++
    answers (List.replicate 2 .done)

theorem target_gains_ours_stolen : ∃ s, exec machine.step (receiveEmpty .apart, blank) stolen =
      some (.ret (.committed (.ok (savedA 0))), s) ∧
    ∃ o, s.lookup (.target, "a".toList) = some o ∧ (s.node o).ours := by
  have hrun : ∃ s, exec machine.step (receiveEmpty .apart, blank) stolen =
      some (.ret (.committed (.ok (savedA 0))), s) ∧ s.lookup (.target, "a".toList) = some 0 :=
    exec_ret_of_any (by decide +kernel)
  obtain ⟨s, hs, ha⟩ := hrun
  have hG : ∀ l ∈ stolen, ∀ s, Meddles s l ∧ KeepsNumbers s l := by
    simp only [stolen, answers, List.forall_mem_append, List.forall_mem_map,
      List.forall_mem_singleton]
    simp [Meddles, KeepsNumbers]
  have hmain :=
    target_gains_only_ours untouched_blank ((along_of_forall hG).mono fun c _ h => h c.2) hs
  obtain ⟨o, ho, -, hours, -⟩ := hmain.2 _ rfl
  exact ⟨s, hs, o, savedA_zero ▸ ho, hours⟩

/-- The copy waits with no descriptor. Somebody else removes it and makes a file of their own,
which gets its number. -/
def replaced : List (Label Choice Act) :=
  answers (staged ++ copied) ++ [.env (.unlink (.copies, zeroPart)),
    .env (.create (.copies, zeroPart) (0, 3) .regular [1])] ++ answers put

theorem target_gains_another :
    (∀ l ∈ replaced, ∀ s, Meddles s l) ∧
    ∃ s, exec machine.step (receiveEmpty .apart, blank) replaced =
        some (.ret (.committed (.ok (savedA 0))), s) ∧
      ∃ o < s.next, s.lookup (.target, "a".toList) = some o ∧ (s.node o).ours = false ∧
        (s.node o).data = [1] := by
  refine ⟨?_, exec_ret_of_any (m := machine) (by decide +kernel)⟩
  simp only [replaced, answers, List.forall_mem_append, List.forall_mem_map, List.forall_mem_cons]
  simp [Meddles]

end Sukkula.Inbox
