import Sukkula.Inbox.Copy

/-! # Placing a file

`commit` from its checks to the destructor. Each name is tried by a link of the
staging file, or by the copy. A file is in the target only as the whole of what
was written, and only once the call that put it there has made sure that it is
this file's.
-/

namespace Sukkula.Inbox

open Str Name Machine

variable {Digest : Type} {w : Setting} {s s' : Disk} {inc : Incoming Digest} {k : Key}
  {K : List Key} {T : Str → Option ℕ} {c : Copied} {f o x : ℕ} {id : FileId}
  {b : Bytes} {dest : Str}

/-- The entries a file still has: its copy's, if there is one, and the staging file's. -/
def Incoming.keys (inc : Incoming Digest) : List Key :=
  inc.copied.toList.map Copied.key ++ [inc.key]

def CopyIds (w : Setting) (inc : Incoming Digest) (s : Disk) : Prop :=
  ∀ c, inc.copied = some c → KeyId w c.key c.id s

theorem CopyIds.steady : Steady w.rival (CopyIds w inc) :=
  fun s s' h hd c hc => KeyId.steady s s' (h c hc) hd

/-- A file that `commit` is done with, for good or ill. -/
structure Left (w : Setting) (inc : Incoming Digest) (T : Str → Option ℕ) (s : Disk) : Prop where
  books : Books w inc.keys T s
  ids : CopyIds w inc s

theorem Left.steady : Steady w.rival (Left w inc T) := fun s s' h hd =>
  ⟨Books.steady s s' h.books hd, CopyIds.steady s s' h.ids hd⟩

/-- A file that is complete, and may have been copied. -/
structure Ready (w : Setting) (f : ℕ) (b : Bytes) (inc : Incoming Digest) (s : Disk) : Prop where
  books : Books w inc.keys w.entries s
  held : Held w inc f b s
  copy : ∀ c, inc.copied = some c → (¬ w.rival → inc.key ≠ c.key) ∧ ∃ o, CopyReady w c o b s

namespace Ready

theorem steady : Steady w.rival (Ready w f b inc) := fun s s' h hd =>
  ⟨Books.steady s s' h.books hd, Held.steady s s' h.held hd, fun c hc =>
    ⟨(h.copy c hc).1, (h.copy c hc).2.imp fun _ ho => CopyReady.steady s s' ho hd⟩⟩

theorem ids (h : Ready w f b inc s) : CopyIds w inc s :=
  fun c hc => (h.copy c hc).2.elim fun _ ho => ho.owns.keyId

theorem left (h : Ready w f b inc s) : Left w inc w.entries s := ⟨h.books, h.ids⟩

theorem inv (h : Ready w f b inc s) : Inv w s := h.books.inv

theorem waiting (h : Ready w f b inc s) (hc : inc.copied = some c) :
    ∃ o, Waiting w inc f b [inc.key] c o s := by
  obtain ⟨-, o, ho⟩ := h.copy c hc
  exact ⟨o, by simpa [Incoming.keys, hc] using h.books, ho, h.held⟩

end Ready

/-- What `place` comes to: the whole file at `dest`, or nothing new in the target. An error that
reads as a taken name leaves the file ready for the next one. -/
def Places (w : Setting) (f : ℕ) (b : Bytes) (inc : Incoming Digest) (dest : Str)
    (r : Except (Stop IoError) Unit × Incoming Digest) (s : Disk) : Prop :=
  (∃ copied, r.2 = { inc with copied := copied }) ∧
    match r.1 with
    | .ok () => ∃ o, w.entries dest = none ∧ w.IsWhole o s ∧
        Left w r.2 (Function.update w.entries dest (some o)) s
    | .error e => Left w r.2 w.entries s ∧ (e = .failed (.os .exist) →
        (w.entries dest ≠ none ∨ s.drewTaken = true) ∧ Ready w f b r.2 s)

/-- Something was linked at `dest` from the staging entry; whether it is the file is not known. -/
structure StageLinked (w : Setting) (f : ℕ) (b : Bytes) (inc : Incoming Digest) (dest : Str) (x : ℕ)
    (s : Disk) : Prop where
  books : Books w inc.keys (Function.update w.entries dest (some x)) s
  held : Held w inc f b s
  ids : CopyIds w inc s
  bound : x < s.next
  kind : (s.node x).kind ≠ .directory

namespace StageLinked

theorem steady : Steady w.rival (StageLinked w f b inc dest x) := fun s s' h hd =>
  ⟨Books.steady s s' h.books hd, Held.steady s s' h.held hd, CopyIds.steady s s' h.ids hd,
    h.bound.trans_le hd.next_le, fun hk => h.kind ((hd.node h.bound).2.1.symm.trans hk)⟩

theorem eq_staged (h : StageLinked w f b inc dest x s) (hdest : dest ≠ stagingDir)
    (he : EntryIs w (.target, dest) false (some inc.id) s) : x = f := by
  have hx : s.lookup (.target, dest) = some x := by
    obtain ⟨Z, hB, -⟩ := h.books
    simpa using hB.target dest hdest
  obtain ⟨y, hy, -, hid⟩ := he (Or.inl rfl)
  obtain rfl : x = y := by simpa [hx] using hy
  exact h.books.wf.distinct x f (Files.live_of_lookup hx) (Files.live_of_opened h.held.opened)
    (hid.trans h.held.owns.id_eq.symm)

end StageLinked

theorem Held.whole (h : Held w inc f b s) (hb : w.Whole b) : w.IsWhole f s :=
  ⟨h.owns.start_le, h.owns.bound, h.owns.ours, h.owns.regular, h.settled.pending,
    h.settled.data ▸ hb⟩

theorem Ready.link (h : Ready w f b inc s) (hb : w.Whole b) (hdest : dest ≠ stagingDir)
    (hkey : inc.key.1 ≠ .target) (hx : s.lookup inc.key = some x)
    (hnone : s.lookup (.target, dest) = none) (hkind : s.kind x ≠ .directory) :
    StageLinked w f b inc dest x (s.on (s.link (.target, dest) x)) := by
  have hlive := Files.live_of_lookup hx
  have hne : inc.key ≠ (.target, dest) := fun he => hkey (congrArg Prod.fst he)
  refine ⟨h.books.map (fun Z hB => hB.link hlive hnone hdest fun hq => ?_) rfl, h.held.link hne,
    fun c hc => ?_, h.books.wf.bound x hlive, hkind⟩
  · have he := h.held.owns.entry hq
    rw [hx] at he
    obtain rfl := Option.some.inj he
    exact h.held.whole hb
  · obtain ⟨-, o, ho⟩ := h.copy c hc
    have hck : c.key ≠ (.target, dest) := nofun
    exact (ho.owns.link hck).keyId

section Place

variable (hfile : inc.file = some f) (hinc : inc.declared = w.declared)
  (hdecl : b.length = w.declared) (hb : w.Whole b) (hkey : w.PartKey inc.key)
  (hdest : dest ≠ stagingDir)

include hb hkey hdest

theorem put_spec (hcc : ¬ w.rival → inc.key ≠ c.key) :
    Spec w ((putCopy c dest).run >>= fun
      | .ok () => pure (.ok (), { inc with copied := none })
      | .error e => pure (.error e, { inc with copied := some c }))
      (Waiting w inc f b [inc.key] c o) (Places w f b inc dest) := by
  refine Spec.bind (putCopy_spec hb hdest hkey.ne_target hcc) fun r => ?_
  rcases r with e | u
  · have hst : Steady w.rival fun s => (e = .failed (.os .exist) → w.entries dest ≠ none ∧
        CopyReady w c o b s) ∧ Books w (c.key :: [inc.key]) w.entries s ∧ KeyId w c.key c.id s ∧
        Held w inc f b s :=
      (Steady.imp ((Steady.const _).and CopyReady.steady)).and
        (Books.steady.and (KeyId.steady.and Held.steady))
    refine Spec.ret hst (fun _ h => h.2.1.inv) fun s h => ⟨⟨some c, rfl⟩, ⟨h.2.1, ?_⟩, fun he => ?_⟩
    · intro c' hc'
      obtain rfl := Option.some.inj hc'
      exact h.2.2.1
    · refine ⟨Or.inl (h.1 he).1, h.2.1, h.2.2.2.copied, fun c' hc' => ?_⟩
      obtain rfl := Option.some.inj hc'
      exact ⟨hcc, o, (h.1 he).2⟩
  · rintro s ⟨h0, hwhole, hbooks, hheld⟩
    refine Spec.finish (P := fun s => w.IsWhole o s ∧
        Books w [inc.key] (Function.update w.entries dest (some o)) s) ⟨hwhole, hbooks⟩
      (Setting.IsWhole.frames.steady (k := c.key).and Books.steady) (fun _ h => h.2.inv)
      fun s h => ⟨⟨none, rfl⟩, o, h0, h.1, h.2, nofun⟩

include hfile hinc hdecl

theorem placeCopy_spec : Spec w (inc.placeCopy dest) (Ready w f b inc) (Places w f b inc dest) := by
  intro s hs
  unfold Incoming.placeCopy
  cases hc : inc.copied with
  | some c =>
    obtain ⟨hcc, -⟩ := hs.copy c hc
    obtain ⟨o, hw⟩ := hs.waiting hc
    exact put_spec hb hkey hdest hcc s hw
  | none =>
    have hbooks : Books w [inc.key] w.entries s := by simpa [Incoming.keys, hc] using hs.books
    refine Spec.bind (copy_spec hfile hinc hdecl hkey) (fun r => ?_) s ⟨hbooks, hs.held⟩
    rcases r with e | c
    · refine Spec.ret ((Steady.imp steady_drewTaken).and (Books.steady.and Held.steady))
        (fun _ h => h.2.1.inv) fun s h => ⟨⟨none, by rw [← hc]⟩, ⟨?_, by simp [CopyIds, hc]⟩,
          fun he => ⟨Or.inr (h.1 he), ?_, h.2.2, by simp [hc]⟩⟩
      all_goals simpa [Incoming.keys, hc] using h.2.1
    · rintro s ⟨hcc, hbooks, hheld, o, ho⟩
      exact put_spec hb hkey hdest hcc s ⟨hbooks, ho, hheld⟩

theorem place_spec : Spec w (inc.place dest) (Ready w f b inc) (Places w f b inc dest) := by
  have hI : ∀ s, Ready w f b inc s → Inv w s := fun _ h => h.inv
  have hend : ∀ e, e ≠ .failed (.os .exist) → ∀ s, Ready w f b inc s →
      machine.Holds (Permits w.rival) (Inv w) (Places w f b inc dest) (.ret (.error e, inc)) s :=
    fun e he => Spec.ret Ready.steady hI fun s h =>
      ⟨⟨inc.copied, rfl⟩, h.left, fun h' => absurd h' he⟩
  refine Spec.call Ready.steady hI fun s l a s' hs ho => ?_
  rcases os_stat ho with ⟨x, hx, rfl, rfl⟩ | ⟨-, rfl, rfl⟩ | ⟨e, he, rfl, rfl⟩
  · change machine.Holds _ _ _ (if _ then _ else _ : Prog Ans _) _
    split_ifs with hid
    · exact hend (.failed tamperedIo) nofun _ hs
    refine Spec.call Ready.steady hI (fun s l a s' hs ho => ?_) _ hs
    rcases os_link ho with ⟨x, hx, hnone, hkind, rfl, rfl⟩ | ⟨e, he, rfl, rfl⟩
    · have h0 := hs.books.entries_eq_none hdest hnone
      refine Spec.bind (entryId_spec StageLinked.steady (fun _ h => h.books.inv)
        (absurd · Bool.false_ne_true))
        (fun r => ?_) _ (hs.link hb hdest hkey.ne_target hx hnone hkind)
      rintro s ⟨hs, hentry⟩
      split_ifs with hr
      · obtain rfl := hs.eq_staged hdest (hr ▸ hentry)
        exact Spec.finish hs StageLinked.steady (fun _ h => h.books.inv)
          fun s h => ⟨⟨inc.copied, rfl⟩, x, h0, h.held.whole hb, h.books, h.ids⟩
      · -- The entry is not the file: what was linked is taken away.
        refine Spec.call StageLinked.steady (fun _ h => h.books.inv) (fun s l a s' hs ho => ?_) s hs
        obtain ⟨rfl, hbooks⟩ := hs.books.unlinkedTarget hdest h0 hs.kind ho
        exact Spec.finish (P := Left w inc w.entries)
          ⟨hbooks, fun c hc => (hs.ids c hc).remove⟩ Left.steady (fun _ h => h.books.inv)
          fun s h => ⟨⟨inc.copied, rfl⟩, h, nofun⟩
    · change machine.Holds _ _ _ (if copyInstead e = true then _ else _ : Prog Ans _) _
      split_ifs with hci
      · exact placeCopy_spec hfile hinc hdecl hb hkey hdest _ hs
      · refine Spec.finish hs Ready.steady hI fun s h => ⟨⟨inc.copied, rfl⟩, h.left, fun hex => ?_⟩
        obtain rfl : e = .exist := by simpa using hex
        refine ⟨Or.inl fun h0 => ?_, h⟩
        obtain ⟨Z, hB, -⟩ := hs.books
        exact he rfl ((hB.target dest hdest).trans h0)
  · exact hend (.failed (.os .noent)) nofun _ hs
  · exact hend (.failed (.os e)) (by simpa using he) _ hs

end Place

/-- The entries that `drop` has to remove. -/
def Incoming.remains (inc : Incoming Digest) : List Key :=
  inc.copied.toList.map Copied.key ++ if inc.done then [] else [inc.key]

structure Leaving (w : Setting) (inc : Incoming Digest) (T : Str → Option ℕ) (s : Disk) : Prop where
  books : Books w inc.remains T s
  ids : CopyIds w inc s
  apart : inc.key.1 ≠ .target

theorem Leaving.steady : Steady w.rival (Leaving w inc T) := fun s s' h hd =>
  ⟨Books.steady s s' h.books hd, CopyIds.steady s s' h.ids hd, h.apart⟩

theorem Left.leaving (h : Left w inc T s) (hd : inc.done = false) (hkey : inc.key.1 ≠ .target) :
    Leaving w inc T s :=
  ⟨by simpa [Incoming.remains, Incoming.keys, hd] using h.books, h.ids, hkey⟩

theorem Left.unlinked {l : Choice} {a : Except Errno Unit} (h : Left w inc T s)
    (hkey : inc.key.1 ≠ .target) (ho : os (.unlink inc.key) s l = some (a, s')) :
    Leaving w { inc with done := true } T s' := by
  have hbooks : Books w (inc.key :: inc.copied.toList.map Copied.key) T s :=
    h.books.perm fun k => by simp only [Incoming.keys, List.mem_append, List.mem_cons]; tauto
  refine ⟨by simpa [Incoming.remains] using hbooks.unlinked hkey ho, fun c hc => ?_, hkey⟩
  rcases os_unlink ho with ⟨x, -, -, rfl⟩ | ⟨-, rfl⟩
  · exact (h.ids c hc).remove
  · exact h.ids c hc

/-- Every number below `n` was taken, or a random name was. -/
def Tried (w : Setting) (name : SafeName) (n : ℕ) (s : Disk) : Prop :=
  (∀ m < n, w.entries (name.numbered (.ofNat m)).val ≠ none) ∨ s.drewTaken = true

theorem Tried.os {name : SafeName} {n : ℕ} {c : Call} {l : Choice} {a : Ans c}
    (h : Tried w name n s) (ho : Inbox.os c s l = some (a, s')) : Tried w name n s' :=
  h.imp_right (os_drewTaken ho)

theorem Tried.env {name : SafeName} {n : ℕ} {a : Act} (h : Tried w name n s)
    (he : Inbox.env s a = some s') : Tried w name n s' :=
  h.imp_right (env_drewTaken he).trans

theorem Tried.steady {name : SafeName} {n : ℕ} : Steady w.rival (Tried w name n) :=
  fun _ _ h hd => h.imp_right hd.flags.2.1.trans

/-- What `commit` comes to. -/
def Commits (w : Setting) (name : SafeName) (limit : ℕ)
    (r : Except (Stop InboxError) Saved × Incoming Digest) (s : Disk) : Prop :=
  match r.1 with
  | .ok saved => ∃ n o, n < limit ∧ saved = ⟨name.numbered (.ofNat n),
      (.target, (name.numbered (.ofNat n)).val), w.declared⟩ ∧ w.entries saved.name.val = none ∧
      Tried w name n s ∧ w.IsWhole o s ∧
      Leaving w r.2 (Function.update w.entries saved.name.val (some o)) s
  | .error _ => Leaving w r.2 w.entries s

theorem tryNames_spec {name : SafeName} (hfile : inc.file = some f) (hname : inc.name = name)
    (hinc : inc.declared = w.declared) (hdone : inc.done = false) (hdecl : b.length = w.declared)
    (hb : w.Whole b) (hkey : w.PartKey inc.key) (n m : ℕ) :
    Spec w (inc.tryNames (List.range' n m)) (fun s => Ready w f b inc s ∧ Tried w name n s)
      (Commits w name (n + m)) := by
  induction m generalizing inc n with
  | zero =>
    exact Spec.ret (Ready.steady.and Tried.steady) (fun _ h => h.1.inv)
      fun s h => h.1.left.leaving hdone hkey.ne_target
  | succ m ih =>
    have hdest : (inc.name.numbered (.ofNat n)).val ≠ stagingDir :=
      SafeName.ne_dot_cons _ _
    rw [List.range'_succ]
    refine Spec.bind (Q := fun r s => Places w f b inc (inc.name.numbered (.ofNat n)).val r s ∧
      Tried w name n s) (fun s hs => ?_) fun r => ?_
    · exact (place_spec hfile hinc hdecl hb hkey hdest s hs.1).frame (fun _ _ _ _ _ h ho => h.os ho)
        (fun _ _ _ h he => h.env he) hs.2
    obtain ⟨res, inc'⟩ := r
    rintro s ⟨⟨⟨copied, hcop⟩, hres⟩, htried⟩
    simp only at hcop hres
    subst hcop
    rcases res with (e | _) | u
    · change machine.Holds _ _ _ (if e.alreadyExists then _ else _ : Prog Ans _) _
      obtain ⟨hleft, hnext⟩ := hres
      split_ifs with hex
      · obtain ⟨htaken, hready⟩ := hnext (by rw [show e = .os .exist from hex])
        have htried' : Tried w name (n + 1) s := by
          rcases htried with h | h
          · rcases htaken with ht | ht
            · refine Or.inl fun j hj => ?_
              rcases Nat.lt_succ_iff_lt_or_eq.mp hj with hj | rfl
              · exact h j hj
              · exact hname ▸ ht
            · exact Or.inr ht
          · exact Or.inr h
        refine (@ih { inc with copied := copied } hfile hname hinc hdone hkey (n + 1)).mono
          (fun r s h => ?_) s ⟨hready, htried'⟩
        rwa [Nat.add_assoc, Nat.add_comm 1] at h
      · exact Spec.finish hleft Left.steady (fun _ h => h.books.inv) fun s h =>
          h.leaving hdone hkey.ne_target
    · exact Spec.finish hres.1 Left.steady (fun _ h => h.books.inv) fun s h =>
        h.leaving hdone hkey.ne_target
    · obtain ⟨o, h0, hwhole, hleft⟩ := hres
      have hst : Steady w.rival fun s => w.IsWhole o s ∧ Tried w name n s ∧
          Left w { inc with copied := copied }
            (Function.update w.entries (inc.name.numbered (.ofNat n)).val (some o)) s :=
        (Setting.IsWhole.frames.steady (k := inc.key)).and (Tried.steady.and Left.steady)
      refine Spec.call hst (fun _ h => h.2.2.books.inv) (fun s l a s' hs ho => ?_) s
        ⟨hwhole, htried, hleft⟩
      have hleav := hs.2.2.unlinked hkey.ne_target ho
      refine Spec.finish (P := fun s => w.IsWhole o s ∧ Tried w name n s ∧ Leaving w
          { inc with copied := copied, done := true }
          (Function.update w.entries (inc.name.numbered (.ofNat n)).val (some o)) s)
        ⟨Setting.IsWhole.frames.unlinked hs.1 ho, hs.2.1.os ho, hleav⟩
        ((Setting.IsWhole.frames.steady (k := inc.key)).and (Tried.steady.and Leaving.steady))
        (fun _ h => h.2.2.books.inv) fun s h => ?_
      refine ⟨n, o, by omega, ?_, h0, h.2.1, h.1, h.2.2⟩
      rw [← hname, ← hinc]

section Commit

variable {name : SafeName} {expected : Option Digest} {body : Bytes}

theorem Tallied.keys (h : Tallied w name expected f body inc s) : inc.keys = [inc.key] := by
  simp [Incoming.keys, h.fits.copied]

theorem Tallied.leaving (h : Tallied w name expected f body inc s) : Leaving w inc w.entries s :=
  ⟨by simpa [Incoming.remains, h.fits.copied, h.fits.done] using h.receiving.books,
    fun c hc => by simp [h.fits.copied] at hc, h.fits.part.ne_target⟩

variable [DecidableEq Digest] {sha256 : Bytes → Digest}

/-- The checks pass only for the whole file, all of it on the disk. -/
theorem verify_spec (hW : body.length = w.declared → (∀ d, expected = some d → sha256 body = d) →
      w.Whole body) :
    Spec w (inc.verify sha256).run (Tallied w name expected f body inc)
      (Post (fun _ s => Fits w name expected f inc ∧ body.length = w.declared ∧ w.Whole body ∧
          Ready w f body inc s) fun _ => Leaving w inc w.entries) := by
  have hI : ∀ s, Tallied w name expected f body inc s → Inv w s := fun _ h => h.receiving.books.inv
  intro s hs
  unfold Incoming.verify
  split_ifs with hf hwr
  · exact Spec.finish hs Tallied.steady hI fun s h => h.leaving
  · exact Spec.finish hs Tallied.steady hI fun s h => h.leaving
  have hf : inc.failed = false := by simpa using hf
  obtain ⟨hhash, hwritten⟩ := hs.written hf
  have hfits := hs.fits
  have hlen : body.length = w.declared := by rw [← hfits.declared, ← not_not.mp hwr, hwritten]
  rw [hfits.file]
  have hst : Steady w.rival fun s => Tallied w name expected f body inc s ∧ Settled f body s :=
    Tallied.steady.and Settled.steady
  refine Spec.bind_except (Q := Post (fun _ s => Tallied w name expected f body inc s ∧
      Settled f body s) fun _ => Leaving w inc w.entries) (Spec.adapt (Q := Post (fun _ s =>
      Tallied w name expected f body inc s ∧ Settled f body s) fun _ => Leaving w inc w.entries) ?_
      fun r _ h => by cases r <;> exact h) (fun _ => ?_) (fun _ _ h => by exact h) s hs
  · refine Spec.call Tallied.steady hI fun s l a s' hs ho => ?_
    rcases os_flush ho with ⟨rfl, hl, rfl⟩ | ⟨e, -, rfl, rfl⟩
    · have hg := hs.receiving.growing hf
      rw [hhash] at hg
      exact Spec.finish ⟨Tallied.steady.land hs, hg.flush hl⟩ hst (fun _ h => hI _ h.1) fun _ h => h
    · exact Spec.finish hs Tallied.steady hI fun _ h => h.leaving
  refine Spec.bind_except (Q := Post (fun _ s => Tallied w name expected f body inc s ∧
      Settled f body s) fun _ => Leaving w inc w.entries) (Spec.adapt (Q := Post (fun _ s =>
      Tallied w name expected f body inc s ∧ Settled f body s) fun _ => Leaving w inc w.entries) ?_
      fun r _ h => by cases r <;> exact h) (fun _ => ?_) fun _ _ h => h
  · refine Spec.call hst (fun _ h => hI _ h.1) fun s l a s' hs ho => ?_
    obtain ⟨rfl, -⟩ := os_sync ho
    rcases a with e | u
    · exact Spec.finish hs hst (fun _ h => hI _ h.1) fun _ h => h.1.leaving
    · exact Spec.finish hs hst (fun _ h => hI _ h.1) fun _ h => h
  refine Spec.bind_except (Q := Post (fun _ s => Tallied w name expected f body inc s ∧
      Settled f body s) fun _ => Leaving w inc w.entries) (Spec.adapt (Q := Post (fun _ s =>
      Tallied w name expected f body inc s ∧ Settled f body s) fun _ => Leaving w inc w.entries) ?_
      fun r _ h => by cases r <;> exact h) (fun st => ?_) fun _ _ h => h
  · refine Spec.call hst (fun _ h => hI _ h.1) fun s l a s' hs ho => ?_
    rcases os_fstat ho with ⟨rfl, rfl⟩ | ⟨e, -, rfl, rfl⟩
    · exact Spec.finish hs hst (fun _ h => hI _ h.1) fun _ h => h
    · exact Spec.finish hs hst (fun _ h => hI _ h.1) fun _ h => h.1.leaving
  rintro s ⟨hs, hset⟩
  have hready : ∀ s, Tallied w name expected f body inc s ∧ Settled f body s →
      Ready w f body inc s :=
    fun s h => ⟨by rw [h.1.keys]; exact h.1.receiving.books,
      ⟨h.1.receiving.owns, h.1.receiving.opened, h.2⟩, by simp [hfits.copied]⟩
  split_ifs with hsize
  · exact Spec.finish ⟨hs, hset⟩ hst (fun _ h => hI _ h.1) fun _ h => h.1.leaving
  · cases hexp : inc.expected with
    | none =>
      have hw := hW hlen fun d hd => by rw [← hfits.expected, hexp] at hd; cases hd
      exact Spec.finish ⟨hs, hset⟩ hst (fun _ h => hI _ h.1)
        fun s h => ⟨hfits, hlen, hw, hready s h⟩
    | some d =>
      change machine.Holds _ _ _ (if _ then _ else _ : ExceptT _ (Prog Ans) Unit).run _
      split_ifs with hd
      · exact Spec.finish ⟨hs, hset⟩ hst (fun _ h => hI _ h.1) fun _ h => h.1.leaving
      · have hw := hW hlen fun d' hd' => by
          rw [← hfits.expected, hexp] at hd'
          rw [← hhash, ← Option.some.inj hd']
          exact not_not.mp hd
        exact Spec.finish ⟨hs, hset⟩ hst (fun _ h => hI _ h.1)
          fun s h => ⟨hfits, hlen, hw, hready s h⟩

omit [DecidableEq Digest] in
theorem tryRange_spec (m : ℕ) :
    Spec w (inc.tryNames (List.range m)) (fun s => Fits w name expected f inc ∧
      body.length = w.declared ∧ w.Whole body ∧ Ready w f body inc s) (Commits w name m) := by
  rintro s ⟨hfits, hlen, hw, hready⟩
  rw [List.range_eq_range']
  have h := tryNames_spec hfits.file hfits.name hfits.declared hfits.done hlen hw hfits.part 0 m s
    ⟨hready, Or.inl nofun⟩
  rwa [Nat.zero_add] at h

theorem commit_spec (hW : body.length = w.declared → (∀ d, expected = some d → sha256 body = d) →
      w.Whole body) :
    Spec w (inc.commit sha256) (Tallied w name expected f body inc)
      (Commits w name maxNameAttempts) := by
  refine Spec.bind (verify_spec hW) fun r => ?_
  rcases r with e | u
  · exact Spec.ret Leaving.steady (fun _ h => h.books.inv) fun _ h => h
  · -- The number of attempts is only in the way of unification.
    generalize maxNameAttempts = m
    exact tryRange_spec m

end Commit

/-- An assertion that the destructor leaves alone. -/
structure Lasts (w : Setting) (R : Disk → Prop) : Prop where
  frames : ∀ k, Frames w k R
  close : ∀ s o, R s → R (s.on (s.close o))

/-- The destructor removes what the file left, unless the `stat` of the copy fails in it. -/
theorem drop_spec {R : Disk → Prop} (hR : Lasts w R) :
    Spec w inc.drop (fun s => Leaving w inc T s ∧ R s) fun _ s => Books w [] T s ∧ R s := by
  have hst : Steady w.rival R := (hR.frames inc.key).steady
  suffices h : inc.key.1 ≠ .target → Spec w inc.drop (fun s => Leaving w inc T s ∧ R s)
      fun _ s => Books w [] T s ∧ R s from fun s hs => h hs.1.apart s hs
  intro hkey
  set K := if inc.done then [] else [inc.key] with hK
  have hpair : Steady w.rival fun s => Books w K T s ∧ R s := Books.steady.and hst
  refine Spec.bind (Q := fun _ s => Books w K T s ∧ R s) ?_ fun _ => ?_
  · rintro s ⟨h, hr⟩
    unfold Incoming.dropCopied
    cases hc : inc.copied with
    | some c =>
      have hbooks : Books w (c.key :: K) T s := by simpa [Incoming.remains, hc, ← hK] using h.books
      exact dropPlacing_spec (hR.frames _) s ⟨hbooks, h.ids c hc, hr⟩
    | none =>
      have hbooks : Books w K T s := by simpa [Incoming.remains, hc, ← hK] using h.books
      exact Spec.finish ⟨hbooks, hr⟩ hpair (fun _ h => h.1.inv) fun _ h => h
  refine Spec.bind (Q := fun _ s => Books w K T s ∧ R s) ?_ fun _ => ?_
  · unfold Incoming.closeFile
    cases inc.file with
    | some fd =>
      refine Spec.call hpair (fun _ h => h.1.inv) fun s l a s' hs ho => ?_
      obtain rfl := os_close ho
      exact Spec.finish ⟨hs.1.close, hR.close s fd hs.2⟩ hpair (fun _ h => h.1.inv) fun _ h => h
    | none => exact Spec.ret hpair (fun _ h => h.1.inv) fun _ h => h
  · cases hd : inc.done with
    | true =>
      rw [hd, if_pos rfl] at hK
      rw [hK]
      exact Spec.ret (Books.steady.and hst) (fun _ h => h.1.inv) fun _ h => h
    | false =>
      rw [hd, if_neg (by simp)] at hK
      rw [hK]
      refine Spec.call (Books.steady.and hst) (fun _ h => h.1.inv) fun s l a s' hs ho => ?_
      exact Spec.finish ⟨hs.1.unlinked hkey ho, (hR.frames _).unlinked hs.2 ho⟩
        (Books.steady.and hst) (fun _ h => h.1.inv) fun _ h => h

end Sukkula.Inbox
