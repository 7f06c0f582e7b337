import Sukkula.Inbox.Own

/-! # What each function of the inbox does

One specification for each function, from the directories up to `begin` and
`write`. A function that touches nothing of this file keeps any assertion that
survives the drift.
-/

namespace Sukkula.Inbox

open Str Name Machine

def Inv (w : Setting) (s : Disk) : Prop := ∃ X T, Base w X T s

/-- From `P`, the program keeps the ledger in order and ends in `Q`. -/
def Spec (w : Setting) {α : Type} (p : Prog Ans α) (P : Disk → Prop) (Q : α → Disk → Prop) : Prop :=
  ∀ s, P s → machine.Holds (Permits w.rival) (Inv w) Q p s

/-- A postcondition for a result and one for an error. -/
def Post {ε α : Type} (Q : α → Disk → Prop) (E : ε → Disk → Prop) : Except ε α → Disk → Prop
  | .ok a => Q a
  | .error e => E e

variable {w : Setting} {s s' : Disk} {α β ε : Type} {P : Disk → Prop}

namespace Spec

variable {Q Q' : α → Disk → Prop} {R : β → Disk → Prop}

theorem ret {a : α} (hP : Steady w.rival P) (hI : ∀ s, P s → Inv w s) (h : ∀ s, P s → Q a s) :
    Spec w (.ret a) P Q :=
  fun _ hs => .ret_of hP.stable hI h hs

theorem finish {a : α} (hs : P s) (hP : Steady w.rival P) (hI : ∀ s, P s → Inv w s)
    (h : ∀ s, P s → Q a s) : machine.Holds (Permits w.rival) (Inv w) Q (.ret a) s :=
  ret hP hI h s hs

theorem call {c : Call} {k : Ans c → Prog Ans α} (hP : Steady w.rival P)
    (hI : ∀ s, P s → Inv w s)
    (h : ∀ s l a s', P s → os c s l = some (a, s') →
      machine.Holds (Permits w.rival) (Inv w) Q (k a) s') :
    Spec w (.call c k) P Q :=
  fun _ hs => .call_of hP.stable hI (fun s l a s' hs _ ho => h s l a s' hs ho) hs

theorem bind {p : Prog Ans α} {f : α → Prog Ans β} (hp : Spec w p P Q)
    (hf : ∀ a, Spec w (f a) (Q a) R) : Spec w (p >>= f) P R :=
  fun s hs => (hp s hs).bind fun a s' ha => hf a s' ha

theorem mono {p : Prog Ans α} (hp : Spec w p P Q) (hQ : ∀ a s, Q a s → Q' a s) : Spec w p P Q' :=
  fun s hs => (hp s hs).mono hQ

theorem pre {p : Prog Ans α} {P' : Disk → Prop} (hp : Spec w p P Q) (hP : ∀ s, P' s → P s) :
    Spec w p P' Q :=
  fun s hs => hp s (hP s hs)

theorem bind_except {Q : Except ε α → Disk → Prop} {R : Except ε β → Disk → Prop}
    {x : ExceptT ε (Prog Ans) α} {f : α → ExceptT ε (Prog Ans) β} (hx : Spec w x.run P Q)
    (hok : ∀ a, Spec w (f a).run (Q (.ok a)) R) (herr : ∀ e s, Q (.error e) s → R (.error e) s) :
    Spec w (x >>= f).run P R :=
  fun s hs => (hx s hs).bind_except (fun a s' ha => hok a s' ha) herr

theorem adapt {ε' : Type} {Q : Except ε α → Disk → Prop} {R : Except ε' α → Disk → Prop}
    {f : ε → ε'} {x : ExceptT ε (Prog Ans) α} (hx : Spec w x.run P Q)
    (hQ : ∀ r s, Q r s → R (r.mapError f) s) : Spec w (x.adapt f).run P R :=
  fun s hs => (hx s hs).adapt hQ

theorem bind_lift {R : Except ε β → Disk → Prop} {p : Prog Ans α} {f : α → ExceptT ε (Prog Ans) β}
    (hp : Spec w p P Q) (hf : ∀ a, Spec w (f a).run (Q a) R) :
    Spec w (ExceptT.lift p >>= f).run P R :=
  fun s hs => (hp s hs).bind_lift fun a s' ha => hf a s' ha

end Spec

theorem mapError_eq_ok {ε' : Type} {x : Except ε α} {f : ε → ε'} {a : α} :
    x.mapError f = .ok a ↔ x = .ok a := by
  cases x <;> simp [Except.mapError]

theorem mapError_ofErrno_ne {a : Except Errno α} (h : a ≠ .error .exist) :
    a.mapError DirError.ofErrno ≠ .error (.io (.os .exist)) := by
  cases a with
  | ok => nofun
  | error e => cases e <;> simp_all [Except.mapError, DirError.ofErrno]

/-- What the functions that open a directory promise: `P` still holds, the directory is ours if
there was no error, and no error reads as a taken name. -/
def Opens (w : Setting) (P : Disk → Prop) (d : Dir) (r : Except DirError α) (s : Disk) : Prop :=
  P s ∧ (∀ a, r = .ok a → w.start.foreign d = false) ∧ r ≠ .error (.io (.os .exist))

section Directories

variable {d : Dir} {share : Share} (hP : Steady w.rival P) (hI : ∀ s, P s → Inv w s)

include hP hI

theorem sysDir_openat_spec : Spec w (sysDir (openatDir d)).run P
    fun r s => P s ∧ r ≠ .error (.io (.os .exist)) := by
  refine Spec.call hP hI fun s l a s' hs ho => ?_
  obtain ⟨rfl, -, hne⟩ := os_openDir ho
  exact Spec.ret hP hI (fun s hs => ⟨hs, mapError_ofErrno_ne hne⟩) _ hs

theorem check_spec : Spec w (check d share).run P (Opens w P d) := by
  unfold check
  refine Spec.bind_except (Q := fun r s => P s ∧ r ≠ .error (.io (.os .exist)) ∧
    ∀ st, r = .ok st → st.ours = !w.start.foreign d) ?_ (fun st => ?_)
    (fun e s hs => ⟨hs.1, nofun, by simpa using hs.2.1⟩)
  · refine Spec.call hP hI fun s l a s' hs ho => ?_
    obtain ⟨rfl, hne, hst⟩ := os_statDir ho
    obtain ⟨X, T, hb⟩ := hI _ hs
    exact Spec.ret hP hI (fun s hs => ⟨hs, mapError_ofErrno_ne hne, fun st h => by
      rw [← hb.foreign]
      exact hst st (mapError_eq_ok.mp h)⟩) _ hs
  · rintro s ⟨hs, -, hours⟩
    split_ifs with h1 h2
    · exact Spec.ret hP hI (fun s hs => ⟨hs, nofun, by simp⟩) s hs
    all_goals
      have hf : w.start.foreign d = false := by
        have : st.isDir = true ∧ st.ours = true := by simpa using h1
        simpa [hours st rfl] using this.2
    · refine Spec.call hP hI (fun s l a s' hs ho => ?_) s hs
      obtain ⟨rfl, hne⟩ := os_chmod ho
      exact Spec.ret hP hI (fun s hs => ⟨hs, fun _ _ => hf, mapError_ofErrno_ne hne⟩) _ hs
    · exact Spec.ret hP hI (fun s hs => ⟨hs, fun _ _ => hf, nofun⟩) s hs

theorem reopen_spec : Spec w (sysDir (openatDir d) >>= fun _ => check d share).run P
    (Opens w P d) :=
  Spec.bind_except (sysDir_openat_spec hP hI)
    (fun _ => (check_spec hP hI).pre fun _ hs => hs.1) fun _ _ hs =>
      ⟨hs.1, nofun, by simpa using hs.2⟩

theorem openPath_spec (hd : d ≠ .copies) : Spec w (openPath d share).run P
    fun r s => P s ∧ ∀ a, r = .ok a → w.start.foreign d = false := by
  refine Spec.call hP hI fun s l a s' hs ho => ?_
  obtain ⟨rfl, -, hne⟩ := os_openDir ho
  rcases a with e | u
  · cases e with
    | noent =>
      refine Spec.call hP hI (fun s l a s' hs ho => ?_) _ hs
      obtain rfl := (os_mkdir ho).resolve_right fun h => hd h.1
      rcases a with e | u
      · exact Spec.ret hP hI (fun s hs => ⟨hs, nofun⟩) _ hs
      · exact (reopen_spec hP hI).mono (fun _ _ h => ⟨h.1, h.2.1⟩) _ hs
    | _ => exact Spec.ret hP hI (fun s hs => ⟨hs, nofun⟩) _ hs
  · exact (check_spec hP hI).mono (fun _ _ h => ⟨h.1, h.2.1⟩) _ hs

/-- `open_at` may make `.partial`, so the assertion has to survive that too. -/
theorem openAt_spec (hM : ∀ s id, P s → s.FreeId id → s.lookup (.target, stagingDir) = none →
      P (s.on (s.add (.target, stagingDir) (.new id .directory [] false)))) :
    Spec w (openAt d share).run P (Opens w P d) := by
  refine Spec.call hP hI fun s l a s' hs ho => ?_
  obtain ⟨rfl, -, hne⟩ := os_openDir ho
  rcases a with e | u
  · cases e with
    | noent =>
      refine Spec.call hP hI (fun s l a s' hs ho => ?_) _ hs
      have hs' : P s' := by
        rcases os_mkdir ho with rfl | ⟨-, id, hid, hnone, rfl⟩
        · exact hs
        · exact hM s id hs hid hnone
      rcases a with e | u
      · cases e with
        | exist => exact reopen_spec hP hI _ hs'
        | _ => exact Spec.ret hP hI (fun s hs => ⟨hs, nofun, by simp [DirError.ofErrno]⟩) _ hs'
      · exact reopen_spec hP hI _ hs'
    | exist => exact absurd rfl hne
    | _ => exact Spec.ret hP hI (fun s hs => ⟨hs, nofun, by simp [DirError.ofErrno]⟩) _ hs
  · exact check_spec hP hI _ hs

theorem partName_spec : Spec w partName.run P fun r s => P s ∧
    (∀ n, r = .ok n → partSuffix <:+ n) ∧ r ≠ .error (.failed (.os .exist)) := by
  refine Spec.call hP hI fun s l a s' hs ho => ?_
  obtain rfl := os_random ho
  rcases a with e | b
  · exact Spec.ret hP hI (fun s hs => ⟨hs, nofun, by simp⟩) _ hs
  · refine Spec.ret hP hI (fun s hs => ⟨hs, fun n hn => ?_, nofun⟩) _ hs
    obtain rfl := Except.ok.inj hn
    exact List.suffix_append _ _

end Directories

/-- `.partial` is not one of the things an assertion is about. -/
def Allows (P : Disk → Prop) : Prop :=
  (∀ s id, P s → s.FreeId id → s.lookup (.target, stagingDir) = none →
    P (s.on (s.add (.target, stagingDir) (.new id .directory [] false)))) ∧
  ∀ s, P s → P { s with drewTaken := true }

theorem openDirs_spec (hP : Steady w.rival P) (hI : ∀ s, P s → Inv w s) (hM : Allows P) :
    Spec w (openDirs w.staging).run P
      fun r s => P s ∧ ∀ a, r = .ok a → w.start.foreign .target = false ∧
        w.start.foreign w.staging.dir = false := by
  refine Spec.bind_except (Q := fun r s => P s ∧ ∀ a, r = .ok a → w.start.foreign .target = false)
    ((openPath_spec hP hI (by decide)).adapt fun r s hs =>
      ⟨hs.1, fun a h => hs.2 a (mapError_eq_ok.mp h)⟩) (fun _ => ?_) (fun _ _ hs => ⟨hs.1, nofun⟩)
  rintro s ⟨hs, htarget⟩
  have htarget := htarget _ rfl
  cases w.staging with
  | nested =>
    exact (openAt_spec hP hI hM.1 s hs).adapt fun r s hs =>
      ⟨hs.1, fun a h => ⟨htarget, hs.2.1 a (mapError_eq_ok.mp h)⟩⟩
  | apart =>
    exact (openPath_spec hP hI (by decide) s hs).adapt fun r s hs =>
      ⟨hs.1, fun a h => ⟨htarget, hs.2 a (mapError_eq_ok.mp h)⟩⟩

variable {k : Key} {K : List Key} {f o : ℕ} {id : FileId} {T : Str → Option ℕ}

/-- A file that was just created, and is open. -/
structure Fresh (w : Setting) (K : List Key) (k : Key) (f : ℕ) (id : FileId) (s : Disk) : Prop where
  books : Books w (k :: K) w.entries s
  owns : Owns w f k id s
  opened : f ∈ s.opened
  growing : Growing f [] s
  kept : (s.node f).removed = false

theorem steady_removed : Steady w.rival fun s => o < s.next ∧ (s.node o).removed = false :=
  fun _ _ h hd => ⟨h.1.trans_le hd.next_le, (hd.node h.1).2.2.2.1.trans h.2⟩

theorem Fresh.steady : Steady w.rival (Fresh w K k f id) := by
  intro s s' h hd
  exact ⟨Books.steady s s' h.books hd, Owns.steady s s' h.owns hd, steady_opened s s' h.opened hd,
    Growing.steady s s' h.growing hd, (steady_removed s s' ⟨h.owns.bound, h.kept⟩ hd).2⟩

/-- `create_exclusive` in a staging directory: a new file, or an error that reads as a taken name
only if the random name was in use. -/
theorem createExclusive_spec {R : ℕ → Disk → Prop} (hP : Steady w.rival P)
    (hB : ∀ s, P s → Books w K w.entries s) (hM : Allows P) (hk : w.PartKey k)
    (hR : ∀ f, Steady w.rival (R f))
    (hadd : ∀ s id, P s → s.lookup k = none →
      Fresh w K k s.next id (s.on ((s.add k (.new id .regular [] true)).openFile s.next)) →
      R s.next (s.on ((s.add k (.new id .regular [] true)).openFile s.next))) :
    Spec w (createExclusive k).run P (Post (fun f s => (∃ id, Fresh w K k f id s) ∧ R f s)
      fun e s => P s ∧ (e = .failed (.os .exist) → s.drewTaken = true)) := by
  have hI : ∀ s, P s → Inv w s := fun s hs => (hB s hs).elim fun Z h => ⟨_, _, h.1⟩
  refine Spec.call hP hI fun s l a s' hs ho => ?_
  rcases os_create ho with ⟨id, hp, hid, hnone, rfl, rfl⟩ | ⟨rfl, rfl⟩ | ⟨e, he, rfl, rfl⟩
  · have hb := hB s hs
    have hgrown : w.start.next ≤ s.next := hb.elim fun _ h => h.1.grown
    have hnode : (s.on ((s.add k (.new id .regular [] true)).openFile s.next)).node s.next =
        .new id .regular [] true := by simp [Files.node_add]
    have hfresh : Fresh w K k s.next id
        (s.on ((s.add k (.new id .regular [] true)).openFile s.next)) := by
      refine ⟨hb.map (fun Z h => (h.create hk hp hid hnone).keys_congr fun _ => ?_) rfl,
        ⟨hgrown, Nat.lt_succ_self _, by rw [hnode]; rfl, by rw [hnode]; rfl, by rw [hnode]; rfl,
          fun _ => by simp⟩, by simp [Files.openFile], .of_new hnode (Nat.lt_succ_self _),
        by rw [hnode]; rfl⟩
      simp only [List.mem_cons, List.mem_append]
      tauto
    exact Spec.ret (P := fun s' => Fresh w K k s.next id s' ∧ R s.next s')
      (Fresh.steady.and (hR _)) (fun _ h => h.1.books.elim fun Z h => ⟨_, _, h.1⟩)
      (fun _ h => ⟨⟨id, h.1⟩, h.2⟩) _ ⟨hfresh, hadd s id hs hnone hfresh⟩
  · exact Spec.ret (P := fun s => P s ∧ s.drewTaken = true) (hP.and steady_drewTaken)
      (fun s h => hI s h.1) (fun _ h => ⟨h.1, fun _ => h.2⟩) _ ⟨hM.2 s hs, rfl⟩
  · exact Spec.ret hP hI (fun _ h => ⟨h, by simp [he]⟩) _ hs

theorem Books.inv (h : Books w K T s) : Inv w s := h.elim fun _ h => ⟨_, _, h.1⟩

theorem Books.close (h : Books w K T s) : Books w K T (s.on (s.close o)) :=
  h.map (fun _ h => h.close) rfl

theorem Books.allows : Allows (Books w K T) :=
  ⟨fun _ _ h hid hnone => h.map (fun _ h => h.mkdir hid hnone) rfl,
    fun _ h => h.map (fun _ h => h.congr rfl rfl) rfl⟩

section Receive

variable {Digest : Type} {inc inc' : Incoming Digest} {name : SafeName} {expected : Option Digest}
  {chunk : Bytes} {chunks : List Bytes}

/-- What `begin` puts into an `Incoming` and no write changes. -/
structure Fits (w : Setting) (name : SafeName) (expected : Option Digest) (f : ℕ)
    (inc : Incoming Digest) : Prop where
  file : inc.file = some f
  part : w.PartKey inc.key
  name : inc.name = name
  declared : inc.declared = w.declared
  expected : inc.expected = expected
  copied : inc.copied = none
  done : inc.done = false

structure Receiving (w : Setting) (f : ℕ) (inc : Incoming Digest) (s : Disk) : Prop where
  books : Books w [inc.key] w.entries s
  owns : Owns w f inc.key inc.id s
  opened : f ∈ s.opened
  growing : inc.failed = false → Growing f inc.hasher s

theorem Receiving.steady : Steady w.rival (Receiving w f inc) := by
  intro s s' h hd
  exact ⟨Books.steady s s' h.books hd, Owns.steady s s' h.owns hd, steady_opened s s' h.opened hd,
    fun hf => Growing.steady s s' (h.growing hf) hd⟩

theorem beginFile_spec : Spec w (beginFile w.staging name w.declared expected).run
    (Books w [] w.entries) (Post (fun inc s => ∃ f, Fits w name expected f inc ∧
      inc.failed = false ∧ inc.hasher = [] ∧ inc.written = 0 ∧ Receiving w f inc s)
      fun _ => Books w [] w.entries) := by
  have hI : ∀ s, Books w [] w.entries s → Inv w s := fun _ h => h.inv
  unfold beginFile
  split_ifs with hsize
  · exact Spec.ret Books.steady hI fun _ h => h
  refine Spec.bind_except (Q := fun r s => Books w [] w.entries s ∧
      ∀ a, r = .ok a → w.start.foreign .target = false ∧ w.start.foreign w.staging.dir = false)
    ((openDirs_spec Books.steady hI Books.allows).adapt fun r s hs =>
      ⟨hs.1, fun a h => hs.2 a (mapError_eq_ok.mp h)⟩) (fun u => ?_) fun _ _ h => h.1
  rintro s ⟨hs, hours⟩
  have hours := hours _ rfl
  refine Spec.bind_except (Q := fun r s => Books w [] w.entries s ∧
      ∀ n, r = .ok n → partSuffix <:+ n)
    ((partName_spec Books.steady hI).adapt fun r s hs =>
      ⟨hs.1, fun a h => hs.2.1 a (mapError_eq_ok.mp h)⟩) (fun stagingName => ?_)
    (fun _ _ h => h.1) s hs
  rintro s ⟨hs, hsuf⟩
  have hkey : w.PartKey (w.staging.dir, stagingName) := 
    ⟨Or.inr rfl, hsuf _ rfl, hours.2, hours.1, hours.2⟩
  refine Spec.bind_except (Q := Post (fun f s => ∃ id,
    Fresh w [] (w.staging.dir, stagingName) f id s)
      fun _ => Books w [] w.entries)
    ((createExclusive_spec (R := fun _ _ => True) Books.steady (fun _ h => h) Books.allows
      hkey (fun _ => .const True) fun _ _ _ _ _ => trivial).adapt ?_)
    (fun fd => ?_) ?_ s hs
  · rintro (e | f) s hs
    · exact hs.1
    · exact hs.1
  rotate_left
  · exact fun _ _ h => h
  · rintro s ⟨id, hs⟩
    refine Spec.call (P := Fresh w [] (w.staging.dir, stagingName) fd id) Fresh.steady
      (fun _ h => h.books.inv) (fun s l a s' hs ho => ?_) s hs
    rcases os_fstat ho with ⟨rfl, rfl⟩ | ⟨e, -, rfl, rfl⟩
    · have hid : (s'.statOf fd).id = id := hs.owns.id_eq
      refine Spec.ret Fresh.steady (fun _ h => h.books.inv) (fun s h => ?_) _ hs
      refine ⟨fd, ⟨rfl, hkey, rfl, rfl, rfl, rfl, rfl⟩, rfl, rfl, rfl, ⟨h.books, ?_, h.opened,
        fun _ => h.growing⟩⟩
      exact hid ▸ h.owns
    · -- The file stays behind: nothing removes it, and a `stat` failed.
      have hleft : Books w [] w.entries { s with statFailed := true } := hs.books.raise.abandon rfl
      refine Spec.call Books.steady hI (fun s l a s' hs ho => ?_) _ hleft
      obtain rfl := os_close ho
      exact Spec.ret Books.steady hI (fun _ h => h) _ hs.close

theorem Books.touch {i : Inode} (h : Books w K w.entries s) (hid : i.id = (s.node o).id)
    (hkind : i.kind = (s.node o).kind) (hours : i.ours = (s.node o).ours)
    (hb : w.start.next ≤ o) (hlive : s.Live o)
    (hsize : i.ours → i.data.length + i.pending.length ≤ w.declared) :
    Books w K w.entries (s.on (s.touch o i)) := by
  refine h.map (fun Z h => h.touch hid hkind hours (Or.inl hb) (fun _ => hlive) hsize ?_) rfl
  -- The target's entries are older than this file.
  intro n hn
  have hlt := w.untouched.wf.bound o (Files.live_of_lookup hn)
  omega

theorem Books.accept {b : Bytes} (h : Books w K w.entries s) (ho : Owns w o k id s)
    (hopen : o ∈ s.opened)
    (hsize : (s.node o).data.length + (s.node o).pending.length + b.length ≤ w.declared) :
    Books w K w.entries (s.accept o b) := by
  refine h.touch rfl rfl rfl ho.start_le (Files.live_of_opened hopen) fun _ => ?_
  simp only [List.length_append]
  omega

theorem Receiving.accept (h : Receiving w f inc s) (hf : inc.failed = false) (b : Bytes)
    (hsize : inc.hasher.length + b.length ≤ w.declared) :
    Books w [inc.key] w.entries (s.accept f b) ∧ Owns w f inc.key inc.id (s.accept f b) ∧
      f ∈ (s.accept f b).opened ∧ Growing f (inc.hasher ++ b) (s.accept f b) := by
  have hg := h.growing hf
  have hsz := hg.size
  exact ⟨h.books.accept h.owns h.opened (by omega), h.owns.touch rfl rfl rfl, h.opened, hg.accept⟩

/-- What is known of an `Incoming` between its writes. -/
structure Tallied (w : Setting) (name : SafeName) (expected : Option Digest) (f : ℕ) (body : Bytes)
    (inc : Incoming Digest) (s : Disk) : Prop where
  fits : Fits w name expected f inc
  receiving : Receiving w f inc s
  written : inc.failed = false → inc.hasher = body ∧ inc.written = body.length

theorem Tallied.steady {body : Bytes} : Steady w.rival (Tallied w name expected f body inc) :=
  fun s s' h hd => ⟨h.fits, Receiving.steady s s' h.receiving hd, h.written⟩

theorem Tallied.spoil {body body' : Bytes} (h : Tallied w name expected f body inc s) :
    Tallied w name expected f body' { inc with failed := true } s :=
  ⟨⟨h.fits.file, h.fits.part, h.fits.name, h.fits.declared, h.fits.expected, h.fits.copied,
    h.fits.done⟩, ⟨h.receiving.books, h.receiving.owns, h.receiving.opened, nofun⟩, nofun⟩

/-- A write that completes is in the tally; any other spoils the file. -/
theorem write_spec {body : Bytes} :
    Spec w (inc.write chunk) (Tallied w name expected f body inc)
      fun r => Tallied w name expected f (body ++ chunk) r.2 := by
  have hI : ∀ s, Tallied w name expected f body inc s → Inv w s := fun _ h => h.receiving.books.inv
  intro s hs
  unfold Incoming.write
  split_ifs with hf hlen
  · refine Spec.ret Tallied.steady hI (fun s h => ⟨h.fits, h.receiving, by simp [hf]⟩) s hs
  · exact Spec.ret Tallied.steady hI (fun s h => h.spoil) s hs
  · have hf : inc.failed = false := by simpa using hf
    obtain ⟨hh, hw⟩ := hs.written hf
    rw [hs.fits.file]
    rw [hs.fits.declared, hw, not_lt] at hlen
    refine Spec.call Tallied.steady hI (fun s l a s' hs ho => ?_) s hs
    have hsize : ∀ n, inc.hasher.length + (chunk.take n).length ≤ w.declared := by
      intro n
      rw [hh, List.length_take]
      omega
    rcases os_write ho with ⟨rfl, -, rfl⟩ | ⟨e, n, -, rfl, rfl⟩
    · obtain ⟨h1, h2, h3, h4⟩ := hs.receiving.accept hf chunk (by rw [hh]; omega)
      refine Spec.ret Tallied.steady (fun _ h => h.receiving.books.inv)
        (fun s h => h) _ ?_
      refine ⟨⟨rfl, hs.fits.part, hs.fits.name, hs.fits.declared, hs.fits.expected, hs.fits.copied,
        hs.fits.done⟩, ⟨h1, h2, h3, fun _ => h4⟩, fun _ => ⟨by simp [hh], by simp [hw]⟩⟩
    · obtain ⟨h1, h2, h3, -⟩ := hs.receiving.accept hf (chunk.take n) (hsize n)
      refine Spec.ret Tallied.steady (fun _ h => h.receiving.books.inv) (fun s h => h) _ ?_
      exact ⟨⟨rfl, hs.fits.part, hs.fits.name, hs.fits.declared, hs.fits.expected, hs.fits.copied,
        hs.fits.done⟩, ⟨h1, h2, h3, nofun⟩, nofun⟩

theorem writes_spec {body : Bytes} :
    Spec w (inc.writes chunks) (Tallied w name expected f body inc)
      (Tallied w name expected f (body ++ chunks.flatten)) := by
  induction chunks generalizing inc body with
  | nil =>
    exact Spec.ret Tallied.steady (fun _ h => h.receiving.books.inv) fun s h => by simpa using h
  | cons chunk chunks ih =>
    refine Spec.bind write_spec fun r => ?_
    simpa using @ih r.2 (body ++ chunk)

end Receive

end Sukkula.Inbox
