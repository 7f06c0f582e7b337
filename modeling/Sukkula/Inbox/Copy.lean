import Sukkula.Inbox.Specs

/-! # The copy fallback

The copy is made from the staging file's own descriptor, and placed only as the
whole file. Once its descriptor is closed, its number alone says that an entry
is the copy, so placing it rests on nobody else having that number.
-/

namespace Sukkula.Inbox

open Str Name Machine

variable {Digest : Type} {w : Setting} {s s' : Disk} {inc : Incoming Digest} {k : Key}
  {K : List Key} {T : Str → Option ℕ} {c : Copied} {f o x : ℕ} {id : FileId} {b p r : Bytes}
  {P R : Disk → Prop} {dest : Str}

/-- What `entry_id` said of an entry that nobody else changes. -/
def EntryIs (w : Setting) (k : Key) (last : Bool) (r : Option FileId) (s : Disk) : Prop :=
  k.1 = .target ∨ ¬ w.rival →
    match r with
    | some id => ∃ o, s.lookup k = some o ∧ o < s.next ∧ (s.node o).id = id
    | none => last = true → s.lookup k = none ∨ s.statFailed = true

theorem EntryIs.steady {last : Bool} {r : Option FileId} : Steady w.rival (EntryIs w k last r) := by
  intro s s' h hd hk
  have hl : s'.lookup k = s.lookup k := by
    rcases hk with hk | hq
    · obtain ⟨d, n⟩ := k
      obtain rfl : d = .target := hk
      exact hd.lookup_target n
    · exact hd.lookup_quiet hq k
  have h := h hk
  cases r with
  | none => exact fun hlast => (h hlast).imp hl.trans hd.flags.1.trans
  | some id =>
    obtain ⟨o, ho, hb, he⟩ := h
    exact ⟨o, hl.trans ho, hb.trans_le hd.next_le, (hd.node hb).1.trans he⟩

theorem entryId_spec {last : Bool} (hP : Steady w.rival P) (hI : ∀ s, P s → Inv w s)
    (hflag : last = true → ∀ s, P s → P { s with statFailed := true }) :
    Spec w (entryId k last) P fun r s => P s ∧ EntryIs w k last r s := by
  refine Spec.call hP hI fun s l a s' hs ho => ?_
  have hw : s.Wf := (hI s hs).elim fun _ h => h.elim fun _ h => h.wf
  have hend : ∀ r s, P s ∧ EntryIs w k last r s → machine.Holds (Permits w.rival) (Inv w)
      (fun r s => P s ∧ EntryIs w k last r s) (.ret r) s := fun r =>
    Spec.ret (hP.and EntryIs.steady) (fun s h => hI s h.1) fun _ h => h
  rcases os_stat ho with ⟨o, hl, rfl, rfl⟩ | ⟨hl, rfl, rfl⟩ | ⟨e, -, rfl, rfl⟩
  · exact hend (some _) _ ⟨hs, fun _ => ⟨o, hl, hw.bound o (Files.live_of_lookup hl), rfl⟩⟩
  · exact hend none _ ⟨hs, fun _ _ => Or.inl hl⟩
  · cases last with
    | true => exact hend none _ ⟨hflag rfl s hs, fun _ _ => Or.inr rfl⟩
    | false => exact hend none _ ⟨hs, fun _ => nofun⟩

/-- An assertion that the removal of the entry `k` leaves alone. -/
structure Frames (w : Setting) (k : Key) (R : Disk → Prop) : Prop where
  steady : Steady w.rival R
  flag : ∀ s, R s → R { s with statFailed := true }
  remove : ∀ s o, R s → R (s.remove k o)

theorem Frames.unlinked {l : Choice} {a : Except Errno Unit} (hR : Frames w k R) (h : R s)
    (ho : os (.unlink k) s l = some (a, s')) : R s' := by
  rcases os_unlink ho with ⟨x, -, -, rfl⟩ | ⟨-, rfl⟩
  · exact hR.remove s x h
  · exact h

/-- The guard removes the copy if it is there, or its own `stat` failed. -/
theorem dropPlacing_spec (hR : Frames w c.key R) :
    Spec w (dropPlacing c) (fun s => Books w (c.key :: K) T s ∧ KeyId w c.key c.id s ∧ R s)
      fun _ s => Books w K T s ∧ R s := by
  have hst : Steady w.rival fun s => Books w (c.key :: K) T s ∧ KeyId w c.key c.id s ∧ R s :=
    Books.steady.and (KeyId.steady.and hR.steady)
  have hend : ∀ s, (Books w K T s ∧ R s) → machine.Holds (Permits w.rival) (Inv w)
      (fun _ s => Books w K T s ∧ R s) (.ret ()) s :=
    Spec.ret (Books.steady.and hR.steady) (fun _ h => h.1.inv) fun _ h => h
  refine Spec.bind (entryId_spec hst (fun _ h => h.1.inv) fun _ s h =>
    ⟨h.1.raise, h.2.1, hR.flag s h.2.2⟩) fun r => ?_
  rintro s ⟨⟨hb, hid, hr⟩, hentry⟩
  split_ifs with he
  · refine Spec.call hst (fun _ h => h.1.inv) (fun s l a s' hs ho => ?_) s ⟨hb, hid, hr⟩
    exact hend _ ⟨hs.1.unlinked (by nofun) ho, hR.unlinked hs.2.2 ho⟩
  · refine hend s ⟨hb.forget fun hq => ?_, hr⟩
    have h := hentry (Or.inr hq)
    cases r with
    | none => exact h rfl
    | some id =>
      obtain ⟨o, ho, -, hoid⟩ := h
      exact absurd (congrArg some (hoid.symm.trans (hid hq o ho).2)) he

structure Held (w : Setting) (inc : Incoming Digest) (f : ℕ) (b : Bytes) (s : Disk) : Prop where
  owns : Owns w f inc.key inc.id s
  opened : f ∈ s.opened
  settled : Settled f b s

namespace Held

theorem steady : Steady w.rival (Held w inc f b) := by
  intro s s' h hd
  exact ⟨Owns.steady s s' h.owns hd, steady_opened s s' h.opened hd,
    Settled.steady s s' h.settled hd⟩

theorem raise (h : Held w inc f b s) : Held w inc f b { s with statFailed := true } :=
  ⟨h.owns.congr le_rfl rfl rfl rfl fun _ => rfl, h.opened, h.settled.congr le_rfl rfl rfl rfl⟩

theorem frames (hne : ¬ w.rival → inc.key ≠ k) : Frames w k (Held w inc f b) where
  steady := steady
  flag _ h := h.raise
  remove _ _ h := ⟨h.owns.remove hne, h.opened, h.settled.remove⟩

theorem copied {copied : Option Copied} (h : Held w inc f b s) :
    Held w { inc with copied := copied } f b s :=
  ⟨h.owns, h.opened, h.settled⟩

theorem touch {i : Inode} (h : Held w inc f b s) (hid : i.id = (s.node x).id)
    (hkind : i.kind = (s.node x).kind) (hours : i.ours = (s.node x).ours)
    (hx : f = x → i.data = (s.node x).data ∧ i.pending = (s.node x).pending) :
    Held w inc f b (s.on (s.touch x i)) :=
  ⟨h.owns.touch hid hkind hours, h.opened, h.settled.touch fun he => ⟨hours, hx he⟩⟩

theorem close (h : Held w inc f b s) (hne : f ≠ x) : Held w inc f b (s.on (s.close x)) :=
  ⟨h.owns.close, List.mem_filter.mpr ⟨h.opened, by simpa using hne⟩, h.settled.close⟩

theorem link (h : Held w inc f b s) (hne : inc.key ≠ k) : Held w inc f b (s.on (s.link k x)) :=
  ⟨h.owns.link hne, h.opened, h.settled.link⟩

theorem unlink (h : Held w inc f b s) (hne : ¬ w.rival → inc.key ≠ k) :
    Held w inc f b (s.on (s.unlink k)) :=
  ⟨h.owns.unlink hne, h.opened, h.settled.unlink⟩

theorem add {i : Inode} (h : Held w inc f b s) (hne : ¬ w.rival → inc.key ≠ k) :
    Held w inc f b (s.on (s.add k i)) :=
  ⟨h.owns.add hne, h.opened, h.settled.add⟩

end Held

/-- The copy `o` in the making: `p` was written to it. -/
structure Making (w : Setting) (inc : Incoming Digest) (f : ℕ) (b : Bytes) (K : List Key) (k : Key)
    (o : ℕ) (id : FileId) (p : Bytes) (s : Disk) : Prop where
  books : Books w (k :: K) w.entries s
  owns : Owns w o k id s
  opened : o ∈ s.opened
  kept : (s.node o).removed = false
  nonDir : NonDir k s
  growing : Growing o p s
  held : Held w inc f b s
  ne : f ≠ o

/-- The copy in the making, with `r` read from the staging file. -/
structure Copying (w : Setting) (inc : Incoming Digest) (f : ℕ) (b : Bytes) (K : List Key) (k : Key)
    (o : ℕ) (id : FileId) (p r : Bytes) (s : Disk) : Prop extends
    Making w inc f b K k o id p s where
  pos : (s.node f).pos = r.length
  read : r <+: b

namespace Making

theorem steady : Steady w.rival (Making w inc f b K k o id p) := by
  intro s s' h hd
  exact ⟨Books.steady s s' h.books hd, Owns.steady s s' h.owns hd, steady_opened s s' h.opened hd,
    (steady_removed s s' ⟨h.owns.bound, h.kept⟩ hd).2, NonDir.steady s s' h.nonDir hd,
    Growing.steady s s' h.growing hd, Held.steady s s' h.held hd, h.ne⟩

theorem atPos (h : Making w inc f b K k o id p s) (hr : r <+: b) :
    Copying w inc f b K k o id p r (s.atPos f r.length) := by
  have hlive := Files.live_of_opened h.held.opened
  refine ⟨⟨h.books.touch rfl rfl rfl h.held.owns.start_le hlive fun hours => ?_,
    h.owns.touch rfl rfl rfl, h.opened, ?_, h.nonDir.touch rfl rfl fun _ => hlive,
    h.growing.touch_other h.ne.symm, h.held.touch rfl rfl rfl fun _ => ⟨rfl, rfl⟩, h.ne⟩, ?_, hr⟩
  · exact h.books.elim fun _ hb => hb.1.sized f hours
  · simpa [Disk.atPos, Files.node_touch, h.ne.symm] using h.kept
  · simp [Disk.atPos, Files.node_touch]

end Making

namespace Copying

theorem steady : Steady w.rival (Copying w inc f b K k o id p r) := fun s s' h hd =>
  ⟨Making.steady s s' h.toMaking hd, (hd.node h.held.owns.bound).2.2.2.2.trans h.pos, h.read⟩

theorem inv (h : Copying w inc f b K k o id p r s) : Inv w s := h.books.inv

theorem accept {chunk : Bytes} (h : Copying w inc f b K k o id p r s)
    (hsize : (p ++ chunk).length ≤ w.declared) :
    Copying w inc f b K k o id (p ++ chunk) r (s.accept o chunk) := by
  have hg := h.growing.size
  have hlive := Files.live_of_opened h.opened
  refine ⟨⟨h.books.accept h.owns h.opened ?_, h.owns.touch rfl rfl rfl, h.opened, ?_,
    h.nonDir.touch rfl rfl fun _ => hlive, h.growing.accept,
    h.held.touch rfl rfl rfl fun he => absurd he h.ne, h.ne⟩, ?_, h.read⟩
  · simp only [List.length_append] at hsize
    omega
  · simpa [Disk.accept, Files.node_touch] using h.kept
  · simpa [Disk.accept, Files.node_touch, h.ne] using h.pos

end Copying

/-- A copy that came to nothing: its entry is on the list, for the guard to remove. -/
structure Spoilt (w : Setting) (inc : Incoming Digest) (f : ℕ) (b : Bytes) (K : List Key) (k : Key)
    (o : ℕ) (id : FileId) (s : Disk) : Prop where
  books : Books w (k :: K) w.entries s
  owns : Owns w o k id s
  held : Held w inc f b s
  ne : f ≠ o

theorem Spoilt.steady : Steady w.rival (Spoilt w inc f b K k o id) := by
  intro s s' h hd
  exact ⟨Books.steady s s' h.books hd, Owns.steady s s' h.owns hd, Held.steady s s' h.held hd, h.ne⟩

theorem Copying.spoilt (h : Copying w inc f b K k o id p r s) : Spoilt w inc f b K k o id s :=
  ⟨h.books, h.owns, h.held, h.ne⟩

/-- The error of an awaited call is none of a taken name. -/
def NotTaken (e : Stop IoError) : Prop := e ≠ .failed (.os .exist)

theorem notTaken_of {e : Stop Errno} (he : e ≠ .failed .exist) : NotTaken e.ofErrno := by
  cases e with
  | failed e => simpa [NotTaken, Stop.ofErrno] using he
  | cancelled => nofun

theorem copyLoop_spec (hdecl : b.length = w.declared) (rounds rest : ℕ) :
    Spec w (copyLoop f o rounds rest).run (Copying w inc f b K k o id p p)
      (Post (fun n s => ∃ q, q.length = p.length + n ∧ Copying w inc f b K k o id q q s)
        fun e s => NotTaken e ∧ Spoilt w inc f b K k o id s) := by
  induction rounds generalizing p rest with
  | zero => exact Spec.ret Copying.steady (fun _ h => h.inv) fun _ h => ⟨p, rfl, h⟩
  | succ rounds ih =>
    unfold copyLoop
    split_ifs with hrest
    · exact Spec.ret Copying.steady (fun _ h => h.inv) fun _ h => ⟨p, rfl, h⟩
    refine Spec.bind_except (Q := Post (fun chunk s => Copying w inc f b K k o id p (p ++ chunk) s)
      fun e s => NotTaken e ∧ Spoilt w inc f b K k o id s) ?_ (fun chunk => ?_) fun _ _ h => h
    · refine Spec.call Copying.steady (fun _ h => h.inv) fun s l a s' hs ho => ?_
      rcases os_read ho with ⟨n, -, hn, -, rfl, rfl⟩ | ⟨e, he, rfl, rfl⟩
      · -- What is read follows what was read before.
        set chunk := ((s.node f).data.drop (s.node f).pos).take n with hchunk
        have hpre : p ++ chunk <+: b := by
          rw [hchunk, hs.held.settled.data, hs.pos]
          obtain ⟨t, ht⟩ := hs.read
          rw [← ht, List.drop_left]
          exact (List.prefix_append_right_inj p).mpr (List.take_prefix _ _)
        have hpos : (s.node f).pos + n = (p ++ chunk).length := by
          rw [hs.pos, List.length_append, hchunk, List.length_take, Nat.min_eq_left hn]
        rw [hpos]
        exact Spec.finish (hs.toMaking.atPos hpre) Copying.steady (fun _ h => h.inv) fun _ h => h
      · exact Spec.finish hs Copying.steady (fun _ h => h.inv) fun _ h => ⟨notTaken_of he, h.spoilt⟩
    · split_ifs with hempty
      · subst hempty
        rw [Post, List.append_nil]
        exact Spec.ret Copying.steady (fun _ h => h.inv) fun _ h => ⟨p, rfl, h⟩
      refine Spec.bind_except (Q := Post (fun _ s => Copying w inc f b K k o id (p ++ chunk)
        (p ++ chunk) s) fun e s => NotTaken e ∧ Spoilt w inc f b K k o id s) ?_ (fun _ => ?_)
        fun _ _ h => h
      · refine Spec.call Copying.steady (fun _ h => h.inv) fun s l a s' hs ho => ?_
        have hsize : (p ++ chunk).length ≤ w.declared := hdecl ▸ hs.read.length_le
        rcases os_write ho with ⟨rfl, -, rfl⟩ | ⟨e, n, he, rfl, rfl⟩
        · exact Spec.finish (hs.accept hsize) Copying.steady (fun _ h => h.inv) fun _ h => h
        · have hshort : (p ++ chunk.take n).length ≤ w.declared := by
            simp only [List.length_append, List.length_take] at hsize ⊢
            omega
          exact Spec.finish (hs.accept hshort) Copying.steady (fun _ h => h.inv)
            fun _ h => ⟨notTaken_of he, h.spoilt⟩
      · refine Spec.bind_except (ih (p := p ++ chunk) (rest - chunk.length)) (fun n => ?_)
          fun _ _ h => h
        rintro s ⟨q, hq, hs⟩
        refine Spec.ret Copying.steady (fun _ h => h.inv) (fun _ h => ⟨q, ?_, h⟩) s hs
        rw [hq, List.length_append]
        omega

theorem ioCopy_spec (hdecl : b.length = w.declared) (limit : ℕ) :
    Spec w (ioCopy f o limit).run (Copying w inc f b K k o id [] [])
      (Post (fun n s => ∃ q, q.length = n ∧ Copying w inc f b K k o id q q s)
        fun e s => NotTaken e ∧ Spoilt w inc f b K k o id s) := by
  refine Spec.bind_except (copyLoop_spec hdecl limit limit) (fun n => ?_) fun _ _ h => h
  rintro s ⟨q, hq, hs⟩
  refine Spec.bind_except (Q := Post (fun _ => Copying w inc f b K k o id q q)
    fun e s => NotTaken e ∧ Spoilt w inc f b K k o id s) ?_ (fun _ => ?_) (fun _ _ h => by
    exact h) s hs
  · refine Spec.call Copying.steady (fun _ h => h.inv) fun s l a s' hs ho => ?_
    rcases os_flush ho with ⟨rfl, -, rfl⟩ | ⟨e, he, rfl, rfl⟩
    · exact Spec.finish (Copying.steady.land hs) Copying.steady (fun _ h => h.inv) fun _ h => h
    · exact Spec.finish hs Copying.steady (fun _ h => h.inv) fun _ h => ⟨notTaken_of he, h.spoilt⟩
  · exact Spec.ret Copying.steady (fun _ h => h.inv) fun _ h => ⟨q, by simpa using hq, h⟩

structure CopyMade (w : Setting) (inc : Incoming Digest) (f : ℕ) (b : Bytes) (K : List Key)
    (k : Key) (o : ℕ) (id : FileId) (s : Disk) : Prop where
  books : Books w (k :: K) w.entries s
  owns : Owns w o k id s
  opened : o ∈ s.opened
  kept : (s.node o).removed = false
  nonDir : NonDir k s
  settled : Settled o b s
  held : Held w inc f b s
  ne : f ≠ o

theorem CopyMade.steady : Steady w.rival (CopyMade w inc f b K k o id) := by
  intro s s' h hd
  exact ⟨Books.steady s s' h.books hd, Owns.steady s s' h.owns hd, steady_opened s s' h.opened hd,
    (steady_removed s s' ⟨h.owns.bound, h.kept⟩ hd).2, NonDir.steady s s' h.nonDir hd,
    Settled.steady s s' h.settled hd, Held.steady s s' h.held hd, h.ne⟩

/-- What the guard watches: a whole copy, or something to remove. -/
theorem copyBody_spec (hfile : inc.file = some f) (hinc : inc.declared = w.declared)
    (hdecl : b.length = w.declared) :
    Spec w (inc.copyBody o).run (Making w inc f b K k o id [])
      (Post (fun _ => CopyMade w inc f b K k o id)
        fun e s => NotTaken e ∧ Spoilt w inc f b K k o id s) := by
  unfold Incoming.copyBody
  rw [hfile]
  refine Spec.bind_except (Q := Post (fun _ => Copying w inc f b K k o id [] [])
    fun e s => NotTaken e ∧ Spoilt w inc f b K k o id s) ?_ (fun _ => ?_) fun _ _ h => h
  · refine Spec.call Making.steady (fun _ h => h.books.inv) fun s l a s' hs ho => ?_
    rcases os_seek ho with ⟨rfl, rfl⟩ | ⟨e, he, rfl, rfl⟩
    · exact Spec.finish (hs.atPos List.nil_prefix) Copying.steady (fun _ h => h.inv) fun _ h => h
    · exact Spec.finish hs Making.steady (fun _ h => h.books.inv)
        fun _ h => ⟨notTaken_of he, h.books, h.owns, h.held, h.ne⟩
  refine Spec.bind_except (ioCopy_spec hdecl _) (fun n => ?_) fun _ _ h => h
  rintro s ⟨q, hq, hs⟩
  split_ifs with hn
  · exact Spec.finish hs Copying.steady (fun _ h => h.inv) fun _ h => ⟨nofun, h.spoilt⟩
  -- As many bytes as the staging file has are all its bytes.
  obtain rfl : q = b := hs.read.eq_of_length (by rw [hq, not_not.mp hn, hinc, hdecl])
  refine Spec.bind_except (Q := Post (fun _ => CopyMade w inc f q K k o id)
    fun e s => NotTaken e ∧ Spoilt w inc f q K k o id s) ?_ (fun _ => ?_) (fun _ _ h => by
    exact h) s hs
  · refine Spec.call Copying.steady (fun _ h => h.inv) fun s l a s' hs ho => ?_
    rcases os_flush ho with ⟨rfl, hl, rfl⟩ | ⟨e, he, rfl, rfl⟩
    · have hland := Copying.steady.land (n := (s.node o).pending.length) (o := o) hs
      exact Spec.finish (⟨hland.books, hland.owns, hland.opened, hland.kept, hland.nonDir,
        hs.growing.flush hl, hland.held, hs.ne⟩ : CopyMade w inc f q K k o id _) CopyMade.steady
        (fun _ h => h.books.inv) fun _ h => h
    · exact Spec.finish hs Copying.steady (fun _ h => h.inv) fun _ h => ⟨notTaken_of he, h.spoilt⟩
  · refine Spec.call CopyMade.steady (fun _ h => h.books.inv) fun s l a s' hs ho => ?_
    obtain ⟨rfl, he⟩ := os_sync ho
    rcases a with e | u
    · exact Spec.finish hs CopyMade.steady (fun _ h => h.books.inv)
        fun _ h => ⟨notTaken_of (by simpa using he), h.books, h.owns, h.held, h.ne⟩
    · exact Spec.finish hs CopyMade.steady (fun _ h => h.books.inv) fun _ h => h

/-- The copy, whole and closed, waits to be placed. -/
structure CopyReady (w : Setting) (c : Copied) (o : ℕ) (b : Bytes) (s : Disk) : Prop where
  owns : Owns w o c.key c.id s
  settled : Settled o b s
  alone : Alone o s
  nonDir : NonDir c.key s

theorem CopyReady.steady : Steady w.rival (CopyReady w c o b) := by
  intro s s' h hd
  exact ⟨Owns.steady s s' h.owns hd, Settled.steady s s' h.settled hd,
    (Alone.steady s s' ⟨h.nonDir.wf, h.alone⟩ hd).2, NonDir.steady s s' h.nonDir hd⟩

theorem Held.create {i : Inode} (h : Held w inc f b s) (hne : ¬ w.rival → inc.key ≠ k) :
    Held w inc f b (s.on ((s.add k i).openFile s.next)) :=
  have ha := h.add (i := i) hne
  ⟨ha.owns.congr le_rfl rfl rfl rfl fun _ => rfl, List.mem_cons_of_mem _ h.opened,
    ha.settled.congr le_rfl rfl rfl rfl⟩

theorem Held.allows (hkey : inc.key.1 ≠ .target) :
    Allows fun s => Books w K T s ∧ Held w inc f b s := by
  have hne : inc.key ≠ (.target, stagingDir) := fun he => hkey (congrArg Prod.fst he)
  refine ⟨fun s id h hid hnone => ⟨Books.allows.1 s id h.1 hid hnone, h.2.add fun _ => hne⟩,
    fun s h => ⟨Books.allows.2 s h.1, ?_⟩⟩
  exact ⟨h.2.owns.congr le_rfl rfl rfl rfl fun _ => rfl, h.2.opened,
    h.2.settled.congr le_rfl rfl rfl rfl⟩

/-- A closed copy keeps the number it had: it was open when it got it. -/
theorem CopyMade.close {c : Copied} (h : CopyMade w inc f b K c.key o c.id s) :
    CopyReady w c o b (s.on (s.close o)) := by
  have hlive := Files.live_of_opened h.opened
  refine ⟨h.owns.close, h.settled.close, ?_, h.nonDir.close⟩
  exact (Alone.of_live h.books.wf hlive h.owns.ours h.kept).congr le_rfl (fun _ _ => rfl)
    h.books.wf rfl rfl fun _ => Files.live_close

theorem copy_spec (hfile : inc.file = some f) (hinc : inc.declared = w.declared)
    (hdecl : b.length = w.declared) (hkey : w.PartKey inc.key) :
    Spec w inc.copy.run (fun s => Books w K w.entries s ∧ Held w inc f b s)
      (Post (fun c s => (¬ w.rival → inc.key ≠ c.key) ∧ Books w (c.key :: K) w.entries s ∧
          Held w inc f b s ∧ ∃ o, CopyReady w c o b s)
        fun e s => (e = .failed (.os .exist) → s.drewTaken = true) ∧ Books w K w.entries s ∧
          Held w inc f b s) := by
  have hst : Steady w.rival fun s => Books w K w.entries s ∧ Held w inc f b s :=
    Books.steady.and Held.steady
  have hI : ∀ s, Books w K w.entries s ∧ Held w inc f b s → Inv w s := fun _ h => h.1.inv
  have hA := Held.allows (w := w) (K := K) (T := w.entries) (f := f) (b := b) hkey.ne_target
  unfold Incoming.copy
  refine Spec.bind_except (Q := fun r s => (Books w K w.entries s ∧ Held w inc f b s) ∧
      (∀ a, r = .ok a → w.start.foreign .copies = false) ∧ r ≠ .error (.failed (.os .exist)))
    ((openAt_spec hst hI hA.1).adapt fun r s hs =>
      ⟨hs.1, fun a h => hs.2.1 a (mapError_eq_ok.mp h), ?_⟩)
    (fun _ => ?_) fun e s hs => ⟨fun he => absurd (by rw [he]) hs.2.2, hs.1⟩
  · rcases r with (_ | e) | u
    · simp [Except.mapError, Incoming.partialUnusable]
    · simpa [Except.mapError, Incoming.partialUnusable] using hs.2.2
    · nofun
  rintro s ⟨hs, hours, -⟩
  have hours := hours _ rfl
  refine Spec.bind_except (partName_spec hst hI) (fun name => ?_)
    (fun e s hs => ⟨fun he => absurd (by rw [he]) hs.2.2, hs.1⟩) s hs
  rintro s ⟨hs, hsuf, -⟩
  have hpart : w.PartKey (.copies, name) := 
    ⟨Or.inl rfl, hsuf _ rfl, hours, hkey.target, hkey.staging⟩
  refine Spec.bind_except (createExclusive_spec (R := fun o s => Held w inc f b s ∧ f ≠ o ∧
      NonDir (.copies, name) s ∧ (¬ w.rival → inc.key ≠ (.copies, name))) hst (fun _ h => h.1) hA
      hpart (fun o => Held.steady.and ((Steady.const _).and (NonDir.steady.and (.const _))))
      fun s id hs hnone hfresh => ?_) (fun o => ?_) (fun e s hs => ⟨hs.2, hs.1⟩) s hs
  · -- With nobody about, the names differ: the staging file's is taken, this one was free.
    have hne : ¬ w.rival → inc.key ≠ (.copies, name) := by
      intro hq he
      have := hs.2.owns.entry hq
      rw [he, hnone] at this
      cases this
    refine ⟨hs.2.create hne, ne_of_lt hs.2.owns.bound, ⟨hfresh.books.wf, fun x hx => ?_⟩, hne⟩
    obtain rfl : s.next = x := by simpa using hx
    simp [Disk.kind, Files.node_add, Inode.new]
  rintro s ⟨⟨id, hfresh⟩, hheld, hfo, hnd, hne⟩
  have hmake : Making w inc f b K (.copies, name) o id [] s :=
    ⟨hfresh.books, hfresh.owns, hfresh.opened, hfresh.kept, hnd, hfresh.growing, hheld, hfo⟩
  refine Spec.call Making.steady (fun _ h => h.books.inv) (fun s l a s' hs ho => ?_) s hmake
  rcases os_fstat ho with ⟨rfl, rfl⟩ | ⟨e, he, rfl, rfl⟩
  · obtain rfl : (s'.statOf o).id = id := hs.owns.id_eq
    refine Spec.bind_lift (copyBody_spec hfile hinc hdecl) (fun r => ?_) _ hs
    rcases r with e | u
    · rintro s ⟨hnt, hsp⟩
      refine Spec.call Spoilt.steady (fun _ h => h.books.inv) (fun s l a s' hs ho => ?_) s hsp
      obtain rfl := os_close ho
      refine Spec.bind_lift (dropPlacing_spec (Held.frames hne)) (fun _ => ?_) _
        ⟨hs.books.close, hs.owns.close.keyId, hs.held.close hs.ne⟩
      exact Spec.ret hst hI fun _ h => ⟨fun he => absurd he hnt, h⟩
    · refine Spec.call CopyMade.steady (fun _ h => h.books.inv) fun s l a s' hs ho => ?_
      obtain rfl := os_close ho
      have hready := CopyMade.close (c := ⟨name, (s'.statOf o).id⟩) hs
      exact Spec.finish (P := fun s => Books w ((.copies, name) :: K) w.entries s ∧
          Held w inc f b s ∧ CopyReady w _ o b s)
        ⟨hs.books.close, hs.held.close hs.ne, hready⟩
        (Books.steady.and (Held.steady.and CopyReady.steady)) (fun _ h => h.1.inv)
        fun _ h => ⟨hne, h.1, h.2.1, o, h.2.2⟩
  · -- The guard is not armed yet, so the file stays behind.
    have hleft : Books w K w.entries { s with statFailed := true } := hs.books.raise.abandon rfl
    refine Spec.call (P := fun s => (Books w K w.entries s ∧ Held w inc f b s) ∧ f ≠ o)
      (hst.and (.const _)) (fun _ h => h.1.1.inv) (fun s l a s' hs ho => ?_) _
        ⟨⟨hleft, hs.held.raise⟩, hfo⟩
    obtain rfl := os_close ho
    exact Spec.finish ⟨hs.1.1.close, hs.1.2.close hs.2⟩ hst hI
      fun _ h => ⟨fun h' => absurd h' (by simpa using he), h⟩

/-- Something was placed at `dest` from the copy's entry; whether it is the copy is not known
yet. -/
structure Linked (w : Setting) (inc : Incoming Digest) (f : ℕ) (b : Bytes) (K : List Key)
    (c : Copied) (o : ℕ) (dest : Str) (x : ℕ) (linked : Bool) (s : Disk) : Prop where
  books : Books w (c.key :: K) (Function.update w.entries dest (some x)) s
  keyId : KeyId w c.key c.id s
  whole : w.IsWhole o s
  id_eq : (s.node o).id = c.id
  alone : Alone o s
  held : Held w inc f b s
  bound : x < s.next
  kind : (s.node x).kind ≠ .directory
  gone : linked = false → ¬ w.rival → s.lookup c.key = none

theorem Linked.steady {linked : Bool} : Steady w.rival (Linked w inc f b K c o dest x linked) := by
  intro s s' h hd
  exact ⟨Books.steady s s' h.books hd, KeyId.steady s s' h.keyId hd, h.whole.drift hd,
    (hd.node h.whole.bound).1.trans h.id_eq, (Alone.steady s s' ⟨h.books.wf, h.alone⟩ hd).2,
    Held.steady s s' h.held hd, h.bound.trans_le hd.next_le,
    fun hk => h.kind ((hd.node h.bound).2.1.symm.trans hk),
    fun hl hq => (hd.lookup_quiet hq _).trans (h.gone hl hq)⟩

structure Waiting (w : Setting) (inc : Incoming Digest) (f : ℕ) (b : Bytes) (K : List Key)
    (c : Copied) (o : ℕ) (s : Disk) : Prop where
  books : Books w (c.key :: K) w.entries s
  ready : CopyReady w c o b s
  held : Held w inc f b s

theorem Waiting.steady : Steady w.rival (Waiting w inc f b K c o) := fun s s' h hd =>
  ⟨Books.steady s s' h.books hd, CopyReady.steady s s' h.ready hd, Held.steady s s' h.held hd⟩

theorem Waiting.whole (h : Waiting w inc f b K c o s) (hb : w.Whole b) : w.IsWhole o s :=
  ⟨h.ready.owns.start_le, h.ready.owns.bound, h.ready.owns.ours, h.ready.owns.regular,
    h.ready.settled.pending, h.ready.settled.data ▸ hb⟩

theorem Setting.IsWhole.congr (h : w.IsWhole o s) (hn : s.next ≤ s'.next)
    (hnode : s'.node o = s.node o) : w.IsWhole o s' :=
  ⟨h.start_le, h.bound.trans_le hn, hnode ▸ h.ours, hnode ▸ h.regular, hnode ▸ h.pending,
    hnode ▸ h.whole⟩

theorem Waiting.link (h : Waiting w inc f b K c o s) (hb : w.Whole b) (hdest : dest ≠ stagingDir)
    (hkey : inc.key.1 ≠ .target) (hx : s.lookup c.key = some x)
    (hnone : s.lookup (.target, dest) = none) :
    Linked w inc f b K c o dest x true (s.on (s.link (.target, dest) x)) := by
  have hlive := Files.live_of_lookup hx
  have hne : c.key ≠ (.target, dest) := nofun
  have hne' : inc.key ≠ (.target, dest) := fun he => hkey (congrArg Prod.fst he)
  have hxo : ¬ w.rival → x = o := by
    intro hq
    have he := h.ready.owns.entry hq
    rw [hx] at he
    exact Option.some.inj he
  refine ⟨h.books.map (fun Z hB => hB.link hlive hnone hdest fun hq => ?_) rfl,
    (h.ready.owns.link hne).keyId, (h.whole hb).congr le_rfl rfl, h.ready.owns.id_eq,
    h.ready.alone.congr le_rfl (fun _ _ => rfl) h.books.wf rfl rfl fun _ => Files.live_link hlive,
    h.held.link hne', h.books.wf.bound x hlive, h.ready.nonDir.kind x hx, nofun⟩
  rw [hxo hq]
  exact h.whole hb

theorem Waiting.rename (h : Waiting w inc f b K c o s) (hb : w.Whole b) (hdest : dest ≠ stagingDir)
    (hkey : inc.key.1 ≠ .target) (hcc : ¬ w.rival → inc.key ≠ c.key) (hx : s.lookup c.key = some x)
    (hnone : s.lookup (.target, dest) = none) :
    Linked w inc f b K c o dest x false (s.on ((s.unlink c.key).link (.target, dest) x)) := by
  have hl := h.link hb hdest hkey hx hnone
  have hne : ((Dir.target, dest) : Key) ≠ c.key := nofun
  rw [Files.link_unlink_comm hne]
  refine ⟨hl.books.map (fun Z hB => hB.unlink nofun fun _ => by simp) rfl,
    fun hq y hy => by simp at hy, hl.whole.congr le_rfl rfl, hl.id_eq,
    hl.alone.congr le_rfl (fun _ _ => rfl) hl.books.wf rfl rfl fun _ => Files.live_unlink,
    hl.held.unlink hcc, hl.bound, hl.kind, fun _ _ => by simp⟩

theorem Books.entries_eq_none (h : Books w K w.entries s) (hdest : dest ≠ stagingDir)
    (hnone : s.lookup (.target, dest) = none) : w.entries dest = none := by
  obtain ⟨Z, hB, -⟩ := h
  rw [← hB.target dest hdest, hnone]

theorem Books.unlinkedTarget {l : Choice} {a : Except Errno Unit}
    (h : Books w K (Function.update w.entries dest (some x)) s) (hdest : dest ≠ stagingDir)
    (h0 : w.entries dest = none) (hkind : (s.node x).kind ≠ .directory)
    (ho : os (.unlink (.target, dest)) s l = some (a, s')) :
    s' = s.remove (.target, dest) x ∧ Books w K w.entries s' := by
  have hx : s.lookup (.target, dest) = some x := by
    obtain ⟨Z, hB, -⟩ := h
    simpa using hB.target dest hdest
  rcases os_unlink ho with ⟨y, hy, -, rfl⟩ | ⟨hdir, -⟩
  · obtain rfl : x = y := by simpa [hx] using hy
    refine ⟨rfl, (h.mark fun hq => ?_).map (fun Z hB => hB.unlinkTarget hdest h0) rfl⟩
    obtain ⟨Z, hB, -⟩ := h
    rcases (hB.quiet hq).target dest with he | ⟨-, o, ho, hw⟩
    · simp [h0] at he
    · obtain rfl : x = o := by simpa using ho
      exact hw.start_le
  · exact absurd (hdir x hx) hkind

theorem KeyId.remove {k' : Key} (h : KeyId w k id s) : KeyId w k id (s.remove k' x) := by
  intro hq y hy
  have hy' : s.lookup k = some y := by
    simp only [Disk.remove, Disk.on_toFiles, Files.lookup_unlink] at hy
    split_ifs at hy
    exact hy
  obtain ⟨hb, he⟩ := h hq y hy'
  refine ⟨hb, ?_⟩
  have hn : (s.remove k' x).node y =
      if y = x then { s.node x with removed := true } else s.node y := Files.node_touch
  rw [hn]
  split_ifs with hyx
  · exact hyx ▸ he
  · exact he

theorem Setting.IsWhole.frames : Frames w k (w.IsWhole o) where
  steady _ _ h hd := h.drift hd
  flag _ h := h.congr le_rfl rfl
  remove s x h := by
    have hn : (s.remove k x).node o =
        if o = x then { s.node x with removed := true } else s.node o := Files.node_touch
    by_cases he : o = x
    · subst he
      rw [if_pos rfl] at hn
      exact ⟨h.start_le, h.bound, by rw [hn]; exact h.ours, by rw [hn]; exact h.regular,
        by rw [hn]; exact h.pending, by rw [hn]; exact h.whole⟩
    · rw [if_neg he] at hn
      exact h.congr le_rfl hn

theorem linkCopy_spec (hb : w.Whole b) (hdest : dest ≠ stagingDir) (hkey : inc.key.1 ≠ .target)
    (hcc : ¬ w.rival → inc.key ≠ c.key) :
    Spec w (linkCopy c dest).run (Waiting w inc f b K c o)
      (Post (fun linked s => w.entries dest = none ∧ ∃ x, Linked w inc f b K c o dest x linked s)
        fun e s => (e = .failed (.os .exist) → w.entries dest ≠ none) ∧
          Waiting w inc f b K c o s) := by
  have hI : ∀ s, Waiting w inc f b K c o s → Inv w s := fun _ h => h.books.inv
  refine Spec.call Waiting.steady hI fun s l a s' hs ho => ?_
  have htaken : s.lookup (.target, dest) ≠ none → w.entries dest ≠ none := by
    intro hn he
    obtain ⟨Z, hB, -⟩ := hs.books
    exact hn ((hB.target dest hdest).trans he)
  rcases os_link ho with ⟨x, hx, hnone, -, rfl, rfl⟩ | ⟨e, he, rfl, rfl⟩
  · exact Spec.finish (hs.link hb hdest hkey hx hnone) Linked.steady (fun _ h => h.books.inv)
      fun _ h => ⟨hs.books.entries_eq_none hdest hnone, x, h⟩
  · change machine.Holds _ _ _ (if copyInstead e = true then _ else _ : Io Bool).run _
    split_ifs with hci
    · refine Spec.call Waiting.steady hI (fun s l a s' hs ho => ?_) _ hs
      rcases os_rename ho with ⟨x, hx, hnone, rfl, rfl⟩ | ⟨e, he, rfl, rfl⟩
      · exact Spec.finish (hs.rename hb hdest hkey hcc hx hnone) Linked.steady
          (fun _ h => h.books.inv) fun _ h => ⟨hs.books.entries_eq_none hdest hnone, x, h⟩
      · refine Spec.finish hs Waiting.steady hI fun _ h => ⟨fun hex => ?_, h⟩
        obtain rfl : e = .exist := by simpa using hex
        intro h0
        obtain ⟨Z, hB, -⟩ := hs.books
        exact he rfl ((hB.target dest hdest).trans h0)
    · refine Spec.finish hs Waiting.steady hI fun _ h => ⟨fun hex => ?_, h⟩
      obtain rfl : e = .exist := by simpa using hex
      exact htaken (he rfl)

theorem Linked.eq_copy {linked : Bool} (h : Linked w inc f b K c o dest x linked s)
    (hdest : dest ≠ stagingDir) (he : EntryIs w (.target, dest) false (some c.id) s) : x = o := by
  have hx : s.lookup (.target, dest) = some x := by
    obtain ⟨Z, hB, -⟩ := h.books
    simpa using hB.target dest hdest
  obtain ⟨y, hy, -, hid⟩ := he (Or.inl rfl)
  obtain rfl : x = y := by simpa [hx] using hy
  exact h.alone.alone x (Files.live_of_lookup hx) (hid.trans h.id_eq.symm)

/-- Placing the copy: the copy and nothing else gets the name, or nothing does. -/
theorem putCopy_spec (hb : w.Whole b) (hdest : dest ≠ stagingDir) (hkey : inc.key.1 ≠ .target)
    (hcc : ¬ w.rival → inc.key ≠ c.key) :
    Spec w (putCopy c dest).run (Waiting w inc f b K c o)
      (Post (fun _ s => w.entries dest = none ∧ w.IsWhole o s ∧
          Books w K (Function.update w.entries dest (some o)) s ∧ Held w inc f b s)
        fun e s => (e = .failed (.os .exist) → w.entries dest ≠ none ∧ CopyReady w c o b s) ∧
          Books w (c.key :: K) w.entries s ∧ KeyId w c.key c.id s ∧ Held w inc f b s) := by
  have hI : ∀ s, Waiting w inc f b K c o s → Inv w s := fun _ h => h.books.inv
  have hfail : ∀ (e : Stop IoError) s, (e = .failed (.os .exist) → w.entries dest ≠ none) ∧
      Waiting w inc f b K c o s →
      (e = .failed (.os .exist) → w.entries dest ≠ none ∧ CopyReady w c o b s) ∧
        Books w (c.key :: K) w.entries s ∧ KeyId w c.key c.id s ∧ Held w inc f b s :=
    fun e s h => ⟨fun he => ⟨h.1 he, h.2.ready⟩, h.2.books, h.2.ready.owns.keyId, h.2.held⟩
  unfold putCopy
  refine Spec.bind_lift (entryId_spec Waiting.steady hI (absurd · Bool.false_ne_true)) fun r => ?_
  rintro s ⟨hs, -⟩
  split_ifs with hr
  · exact Spec.finish hs Waiting.steady hI fun s h => hfail (.failed tamperedIo) s ⟨nofun, h⟩
  refine Spec.bind_except (linkCopy_spec hb hdest hkey hcc) (fun linked => ?_)
    (fun e s h => hfail e s h) s hs
  rintro s ⟨h0, x, hs⟩
  refine Spec.bind_lift (entryId_spec Linked.steady (fun _ h => h.books.inv)
    (absurd · Bool.false_ne_true))
    (fun r => ?_) s hs
  rintro s ⟨hs, hentry⟩
  split_ifs with hr hl
  · -- Not the copy: it is removed again.
    refine Spec.call Linked.steady (fun _ h => h.books.inv) (fun s l a s' hs ho => ?_) s hs
    obtain ⟨rfl, hbooks⟩ := hs.books.unlinkedTarget hdest h0 hs.kind ho
    have hkt : inc.key ≠ (.target, dest) := fun he => hkey (congrArg Prod.fst he)
    exact Spec.finish (P := fun s => Books w (c.key :: K) w.entries s ∧ KeyId w c.key c.id s ∧
        Held w inc f b s) ⟨hbooks, hs.keyId.remove, (Held.frames fun _ => hkt).remove s x hs.held⟩
      (Books.steady.and (KeyId.steady.and Held.steady)) (fun _ h => h.1.inv)
      fun _ h => ⟨nofun, h⟩
  all_goals
    have hr : r = some c.id := not_not.mp hr
    obtain rfl := hs.eq_copy hdest (hr ▸ hentry)
    have hst : Steady w.rival fun s => w.IsWhole x s ∧
        Books w K (Function.update w.entries dest (some x)) s ∧ Held w inc f b s :=
      Setting.IsWhole.frames.steady (k := c.key).and (Books.steady.and Held.steady)
  · refine Spec.call Linked.steady (fun _ h => h.books.inv) (fun s l a s' hs ho => ?_) s hs
    exact Spec.finish ⟨Setting.IsWhole.frames.unlinked hs.whole ho, hs.books.unlinked nofun ho,
      (Held.frames hcc).unlinked hs.held ho⟩ hst (fun _ h => h.2.1.inv) fun _ h => ⟨h0, h⟩
  · exact Spec.finish ⟨hs.whole, hs.books.forget fun hq => Or.inl (hs.gone (by simpa using hl) hq),
      hs.held⟩ hst (fun _ h => h.2.1.inv) fun _ h => ⟨h0, h⟩

end Sukkula.Inbox
