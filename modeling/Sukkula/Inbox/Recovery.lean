import Sukkula.Inbox.Guarantees

/-! # What a kill leaves, and the next start

A process can be killed between any two calls, and then no destructor runs. What
it leaves is read off the ledger, which is in order at every point. The next
`open` then finds every staging file that was left and removes it.
-/

namespace Sukkula.Inbox

open Str Name Machine Transition

/-- The disk after the process is killed: no descriptor is open, and nothing more is written. -/
def Disk.killed (s : Disk) : Disk :=
  s.on { s.toFiles with node := fun o => { s.node o with pending := [] }, opened := [] }

structure Crashed (s₀ : Disk) (staging : Staging) (Whole : Bytes → Prop) (s : Disk) : Prop where
  nodes : ∀ o < s₀.next, s.node o = s₀.node o
  kept : ∀ n, n ≠ stagingDir → ∀ o, s₀.lookup (.target, n) = some o → s.lookup (.target, n) = some o
  target : ∀ n, n ≠ stagingDir → ∀ o, s.lookup (.target, n) = some o →
    s₀.lookup (.target, n) = some o ∨
      s₀.lookup (.target, n) = none ∧ s.kind o = .regular ∧ Whole (s.node o).data
  copies : ∀ o, s.lookup (.target, stagingDir) = some o →
    s₀.lookup (.target, stagingDir) = some o ∨ s.kind o = .directory
  staging : ∀ k o, k.1 ≠ .target → s.lookup k = some o → s₀.lookup k = some o ∨
    s₀.lookup k = none ∧ (k.1 = .copies ∨ k.1 = staging.dir) ∧ partSuffix <:+ k.2 ∧
      s.kind o = .regular

variable {w : Setting} {s s' s₁ : Disk} {X : List Key} {T : Str → Option ℕ}

theorem Base.crashed (h : Base w X T s) (hq : ¬ w.rival) :
    Crashed w.start w.staging w.Whole s.killed := by
  have hQ := h.quiet hq
  refine ⟨fun o ho => ?_, fun n hn o ho => ?_, fun n hn o ho => ?_, fun o ho => ?_,
    fun k o hk ho => ?_⟩
  · change { s.node o with pending := [] } = _
    rw [hQ.nodes o ho, ← w.untouched.pending o]
  · rcases hQ.target n with hT | ⟨h0, -⟩
    · exact (h.target n hn).trans (hT.trans ho)
    · rw [Setting.entries, ho] at h0
      cases h0
  · have ho : s.lookup (.target, n) = some o := ho
    rw [h.target n hn] at ho
    rcases hQ.target n with hT | ⟨h0, o', ho', hwhole⟩
    · exact Or.inl (hT.symm.trans ho)
    · obtain rfl := Option.some.inj (ho'.symm.trans ho)
      exact Or.inr ⟨h0, hwhole.regular, hwhole.whole⟩
  · have ho : s.lookup (.target, stagingDir) = some o := ho
    rcases h.copies with hc | ⟨-, o', ho', -, hd⟩
    · exact Or.inl (hc.symm.trans ho)
    · exact Or.inr (Option.some.inj (ho'.symm.trans ho) ▸ hd)
  · have ho : s.lookup k = some o := ho
    by_cases hX : k ∈ X
    · obtain ⟨hpart, hnone, -⟩ := hQ.keys k hX
      exact Or.inr ⟨hnone, hpart.dir, hpart.suffix, (hQ.own k hX o ho).2.2⟩
    · exact Or.inl ((hQ.links k hk hX).symm.trans ho)

def Smooth (l : Label Choice Act) : Prop := Silent l ∧ ∀ e, l ≠ .answer (.fails e)

/-- What the next start keeps of the disk `s₁` it finds. -/
structure Keeps (s₁ s : Disk) : Prop where
  pending : ∀ o, (s.node o).pending = []
  foreign : s.foreign = s₁.foreign
  nodes : ∀ o < s₁.next, s.kind o = s₁.kind o ∧ (s.node o).data = (s₁.node o).data
  target : ∀ n, n ≠ stagingDir → s.lookup (.target, n) = s₁.lookup (.target, n)
  copies : ∀ o, s₁.lookup (.target, stagingDir) = some o → s.lookup (.target, stagingDir) = some o
  staging : ∀ k o, k.1 ≠ .target → s.lookup k = some o → s₁.lookup k = some o
  grown : s₁.next ≤ s.next
  names : ∀ d, d ≠ .target → (s.names d).length ≤ (s₁.names d).length

namespace Keeps

variable {k : Key} {o : ℕ}

theorem stable {P : Disk → Prop} (hP : ∀ s, P s → Keeps s₁ s) :
    machine.Stable (fun _ => Smooth) P := by
  intro s a s' hs hg he
  cases a with
  | land o n =>
    obtain rfl : s.land o n = s' := Option.some.inj he
    rwa [Disk.land_of_pending ((hP s hs).pending o)]
  | lose o =>
    simp only [machine, env, if_pos ((hP s hs).pending o)] at he
    cases he
  | _ => exact hg.1.elim

theorem present {d : Dir} (h : Keeps s₁ s) (hw : s₁.Wf) (hd : s₁.Present d) : s.Present d := by
  intro hc
  obtain ⟨o, ho, hk⟩ := hd hc
  exact ⟨o, h.copies o ho, (h.nodes o (hw.bound o (Files.live_of_lookup ho))).1.trans hk⟩

theorem mkdir {id : FileId} (h : Keeps s₁ s) (hnone : s.lookup (.target, stagingDir) = none) :
    Keeps s₁ (s.on (s.add (.target, stagingDir) (.new id .directory [] false))) := by
  refine ⟨fun o => ?_, h.foreign, fun o ho => ?_, fun n hn => ?_, fun o ho => ?_,
    fun k o hk ho => ?_, h.grown.trans (Nat.le_succ _), fun d hd => ?_⟩
  · simp only [Disk.on_toFiles, Files.node_add]
    split_ifs
    · rfl
    · exact h.pending o
  · have hne : o ≠ s.next := ne_of_lt (ho.trans_le h.grown)
    simpa [Disk.kind, Files.node_add, hne] using h.nodes o ho
  · simpa [hn] using h.target n hn
  · rw [h.copies o ho] at hnone
    cases hnone
  · have hne : k ≠ (.target, stagingDir) := fun he => hk (congrArg Prod.fst he)
    exact h.staging k o hk (by simpa [hne] using ho)
  · simpa [Disk.names, Files.add, hd.symm] using h.names d hd

theorem remove (h : Keeps s₁ s) (hk : k.1 ≠ .target) : Keeps s₁ (s.remove k o) := by
  have hne : ∀ n, (Dir.target, n) ≠ k := by rintro n rfl; exact hk rfl
  have hnode : ∀ x, ((s.remove k o).node x).pending = (s.node x).pending ∧
      (s.remove k o).kind x = s.kind x ∧ ((s.remove k o).node x).data = (s.node x).data := by
    intro x
    simp only [Disk.remove, Disk.kind, Disk.on_toFiles, Files.node_unlink, Files.node_touch]
    split_ifs with hx <;> simp [hx]
  refine ⟨fun x => (hnode x).1.trans (h.pending x), h.foreign, fun x hx => ?_, fun n hn => ?_,
    fun x hx => ?_, fun k' x hk' hx => ?_, h.grown, fun d hd => ?_⟩
  · exact ⟨(hnode x).2.1.trans (h.nodes x hx).1, (hnode x).2.2.trans (h.nodes x hx).2⟩
  · simpa [Disk.remove, hne n] using h.target n hn
  · simpa [Disk.remove, hne] using h.copies x hx
  · simp only [Disk.remove, Disk.on_toFiles, Files.lookup_unlink, Files.lookup_touch] at hx
    split_ifs at hx
    exact h.staging k' x hk' hx
  · refine le_trans ?_ (h.names d hd)
    exact (List.filter_sublist.filterMap _).length_le

end Keeps

section Smooth

variable {l : Choice} {d : Dir} {k : Key} (hl : Smooth (.answer l))

include hl

theorem openDir_smooth {a : Except Errno Unit} (h : os (.openDir d) s l = some (a, s')) :
    s' = s ∧ (s.Present d → a = .ok ()) := by
  cases l with
  | done =>
    obtain ⟨rfl, rfl⟩ := Prod.mk.inj (Option.some.inj h)
    refine ⟨rfl, fun hp => ?_⟩
    unfold openDirAns
    split_ifs with hd
    · obtain ⟨o, ho, hk⟩ := hp hd
      simp [ho, hk]
    · rfl
  | fails e => exact absurd rfl (hl.2 e)
  | _ => cases h

theorem statDir_smooth {a : Except Errno DirStat} (h : os (.statDir d) s l = some (a, s')) :
    s' = s ∧ ∃ m, a = .ok ⟨true, !s.foreign d, m⟩ := by
  cases l with
  | mode m =>
    obtain ⟨rfl, rfl⟩ := Prod.mk.inj (Option.some.inj h)
    exact ⟨rfl, m, rfl⟩
  | fails e => exact absurd rfl (hl.2 e)
  | _ => cases h

theorem chmod_smooth {a : Except Errno Unit} {m : BitVec 12}
    (h : os (.chmod d m) s l = some (a, s')) : s' = s ∧ a = .ok () := by
  cases l with
  | done =>
    obtain ⟨rfl, rfl⟩ := Prod.mk.inj (Option.some.inj h)
    exact ⟨rfl, rfl⟩
  | fails e => exact absurd rfl (hl.2 e)
  | _ => cases h

theorem stat_smooth {last : Bool} {a : Except Errno Stat}
    (h : os (.stat k last) s l = some (a, s')) :
    s' = s ∧ ∀ o, s.lookup k = some o → a = .ok (s.statOf o) := by
  replace h : Os.stat k last s l = some (a, s') := h
  cases l with
  | done =>
    simp only [Os.stat] at h
    split at h <;> obtain ⟨rfl, rfl⟩ := Prod.mk.inj (Option.some.inj h)
    · exact ⟨rfl, fun o ho => by simp_all⟩
    · exact ⟨rfl, fun o ho => by simp_all⟩
  | fails e => exact absurd rfl (hl.2 e)
  | _ => cases h

theorem list_smooth {a : Except Errno (List DirEntry)} (h : os (.list d) s l = some (a, s')) :
    s' = s ∧ ∃ es, a = .ok es ∧ s.Lists d es := by
  replace h : Os.list d s l = some (a, s') := h
  cases l with
  | lists es =>
    simp only [Os.list] at h
    split_ifs at h with hls
    obtain ⟨rfl, rfl⟩ := Prod.mk.inj (Option.some.inj h)
    exact ⟨rfl, es, rfl, hls⟩
  | fails e => exact absurd rfl (hl.2 e)
  | _ => cases h

end Smooth

variable {α β ε : Type} {P : Disk → Prop}

/-- From `P`, a run of which no call fails ends in `Q`. -/
def Mends (p : Prog Ans α) (P : Disk → Prop) (Q : α → Disk → Prop) : Prop :=
  ∀ s, P s → machine.Holds (fun _ => Smooth) (fun _ => True) Q p s

namespace Mends

variable {Q : α → Disk → Prop} {R : β → Disk → Prop}

theorem ret {a : α} (hP : ∀ s, P s → Keeps s₁ s) (h : ∀ s, P s → Q a s) : Mends (.ret a) P Q :=
  fun _ hs => .ret_of (Keeps.stable hP) (fun _ _ => trivial) h hs

theorem call {c : Call} {k : Ans c → Prog Ans α} (hP : ∀ s, P s → Keeps s₁ s)
    (h : ∀ s l a s', P s → Smooth (.answer l) → os c s l = some (a, s') →
      machine.Holds (fun _ => Smooth) (fun _ => True) Q (k a) s') : Mends (.call c k) P Q :=
  fun _ hs => .call_of (Keeps.stable hP) (fun _ _ => trivial) h hs

theorem bind {p : Prog Ans α} {f : α → Prog Ans β} (hp : Mends p P Q)
    (hf : ∀ a, Mends (f a) (Q a) R) : Mends (p >>= f) P R :=
  fun s hs => (hp s hs).bind fun a s' ha => hf a s' ha

theorem bind_except {Q : Except ε α → Disk → Prop} {R : Except ε β → Disk → Prop}
    {x : ExceptT ε (Prog Ans) α} {f : α → ExceptT ε (Prog Ans) β} (hx : Mends x.run P Q)
    (hok : ∀ a, Mends (f a).run (Q (.ok a)) R) (herr : ∀ e s, Q (.error e) s → R (.error e) s) :
    Mends (x >>= f).run P R :=
  fun s hs => (hx s hs).bind_except (fun a s' ha => hok a s' ha) herr

end Mends

/-- What opening a directory comes to: `P` still holds, and a directory of ours is open. -/
def Reopened (s₁ : Disk) (P : Disk → Prop) (d : Dir) (a : α) (r : Except ε α) (s : Disk) : Prop :=
  P s ∧ (s₁.foreign d = false → s₁.Present d → r = .ok a)

theorem Reopened.mapError {ε' : Type} {d : Dir} {a : α} {r : Except ε α} {f : ε → ε'}
    (h : Reopened s₁ P d a r s) : Reopened s₁ P d a (r.mapError f) s :=
  ⟨h.1, fun hf hp => by rw [h.2 hf hp]; rfl⟩

section Directories

variable {d : Dir} {share : Share} (hP : ∀ s, P s → Keeps s₁ s)

include hP

theorem check_mends : Mends (check d share).run P
    fun r s => P s ∧ (s₁.foreign d = false → r = .ok ()) := by
  refine Mends.call hP fun s l a s' hs hl ho => ?_
  obtain ⟨rfl, m, rfl⟩ := statDir_smooth hl ho
  have hf := (hP _ hs).foreign
  change machine.Holds _ _ _ (ExceptT.run (if _ then _ else _)) _
  split_ifs with h1 h2
  · refine Mends.ret hP (fun s hs => ⟨hs, fun hd => ?_⟩) _ hs
    simp [hf, hd] at h1
  · refine Mends.call hP (fun s l a s' hs hl ho => ?_) _ hs
    obtain ⟨rfl, rfl⟩ := chmod_smooth hl ho
    exact Mends.ret hP (fun s hs => ⟨hs, fun _ => rfl⟩) _ hs
  · exact Mends.ret hP (fun s hs => ⟨hs, fun _ => rfl⟩) _ hs

theorem check_reopened : Mends (check d share).run P (Reopened s₁ P d ()) :=
  fun s hs => (check_mends hP s hs).mono fun _ _ h => ⟨h.1, fun hf _ => h.2 hf⟩

/-- Opening and checking, after a directory turned out to be missing. -/
theorem reopen_mends : Mends (sysDir (openatDir d) >>= fun _ => check d share).run P
    fun _ s => P s := by
  refine Mends.bind_except (Q := fun _ s => P s) (Mends.call hP fun s l a s' hs hl ho => ?_)
    (fun _ s hs => (check_mends hP s hs).mono fun _ _ h => h.1) fun _ _ hs => hs
  obtain ⟨rfl, -⟩ := openDir_smooth hl ho
  exact Mends.ret hP (fun s hs => hs) _ hs

theorem openPath_mends (hd : d ≠ .copies) :
    Mends (openPath d share).run P (Reopened s₁ P d ()) := by
  refine Mends.call hP fun s l a s' hs hl ho => ?_
  obtain ⟨rfl, ha⟩ := openDir_smooth hl ho
  obtain rfl := ha fun h => absurd h hd
  exact check_reopened hP _ hs

theorem openExistingAt_mends (hw : s₁.Wf) :
    Mends (openExistingAt d share).run P (Reopened s₁ P d true) := by
  refine Mends.call hP fun s l a s' hs hl ho => ?_
  obtain ⟨rfl, ha⟩ := openDir_smooth hl ho
  rcases a with e | u
  · have hno : ¬ s₁.Present d := fun hp => nomatch ha ((hP _ hs).present hw hp)
    cases e <;> exact Mends.ret hP (fun s hs => ⟨hs, fun _ hp => absurd hp hno⟩) _ hs
  · refine Mends.bind_except (check_mends hP) (fun _ => ?_)
      (fun e s h => ⟨h.1, fun hf _ => ?_⟩) _ hs
    · exact fun s h => Mends.ret hP (fun s hs => ⟨hs, fun _ _ => rfl⟩) s h.1
    · cases h.2 hf

end Directories

theorem openAt_mends {d : Dir} {share : Share} (hw : s₁.Wf) :
    Mends (openAt d share).run (Keeps s₁) (Reopened s₁ (Keeps s₁) d ()) := by
  have hP : ∀ s, Keeps s₁ s → Keeps s₁ s := fun _ h => h
  refine Mends.call hP fun s l a s' hs hl ho => ?_
  obtain ⟨rfl, ha⟩ := openDir_smooth hl ho
  rcases a with e | u
  · have hno : ¬ s₁.Present d := fun hp => nomatch ha (hs.present hw hp)
    cases e with
    | noent =>
      refine Mends.call hP (fun s l a s' hs hl ho => ?_) _ hs
      have hs' : Keeps s₁ s' := by
        rcases os_mkdir ho with rfl | ⟨-, id, -, hnone, rfl⟩
        · exact hs
        · exact hs.mkdir hnone
      have hre : machine.Holds _ _ (Reopened s₁ (Keeps s₁) d ())
          (sysDir (openatDir d) >>= fun _ => check d share).run s' :=
        (reopen_mends hP _ hs').mono fun _ _ h => ⟨h, fun _ hp => absurd hp hno⟩
      rcases a with e | u
      · cases e with
        | exist => exact hre
        | _ => exact Mends.ret hP (fun s hs => ⟨hs, fun _ hp => absurd hp hno⟩) _ hs'
      · exact hre
    | _ => exact Mends.ret hP (fun s hs => ⟨hs, fun _ hp => absurd hp hno⟩) _ hs
  · exact check_reopened hP _ hs

/-- The directories of a file are opened, if both are ours and the staging directory is there. -/
theorem openDirs_mends {staging : Staging} (hw : s₁.Wf) :
    Mends (openDirs staging).run (Keeps s₁) fun r s => Keeps s₁ s ∧ (s₁.foreign .target = false →
      s₁.foreign staging.dir = false → s₁.Present staging.dir → r = .ok ()) := by
  refine Mends.bind_except (Q := Reopened s₁ (Keeps s₁) .target ()) (fun s hs =>
    (openPath_mends (fun _ h => h) (by decide) s hs).adapt fun _ _ h => h.mapError) (fun _ => ?_)
    (fun e s h => ⟨h.1, fun hf => nomatch h.2 hf nofun⟩)
  intro s hs
  cases staging with
  | nested =>
    exact (openAt_mends hw s hs.1).adapt fun _ _ h => ⟨h.1, fun _ => h.mapError.2⟩
  | apart =>
    exact (openPath_mends (fun _ h => h) (by decide) s hs.1).adapt fun _ _ h =>
      ⟨h.1, fun _ => h.mapError.2⟩

section Sweep

variable {d : Dir} {k : Key} {es : List DirEntry} {c : Prop}

/-- The sweep has removed `k`, or is still to come to it. What it is about may be void. -/
def Ahead (s₁ : Disk) (c : Prop) (d : Dir) (k : Key) (es : List DirEntry) (s : Disk) : Prop :=
  Keeps s₁ s ∧ (c → s.lookup k = none ∨
    ∃ e ∈ es, (d, e.name) = k ∧ ∀ t, e.fileType = some t → t = .regular)

theorem Ahead.skip {e : DirEntry} (h : Ahead s₁ c d k (e :: es) s)
    (he : c → (d, e.name) = k → (∀ t, e.fileType = some t → t = .regular) → s.lookup k = none) :
    Ahead s₁ c d k es s := by
  refine ⟨h.1, fun hc => ?_⟩
  rcases h.2 hc with h0 | ⟨e', he', hk, ht⟩
  · exact Or.inl h0
  · rcases List.mem_cons.mp he' with rfl | he'
    · exact Or.inl (he hc hk ht)
    · exact Or.inr ⟨e', he', hk, ht⟩

structure Stale (s₁ : Disk) (k : Key) : Prop where
  apart : k.1 ≠ .target
  suffix : partSuffix <:+ k.2
  regular : ∀ o, s₁.lookup k = some o → o < s₁.next ∧ s₁.kind o = .regular

theorem Stale.kind {o : ℕ} (hk : Stale s₁ k) (h : Keeps s₁ s) (ho : s.lookup k = some o) :
    s.kind o = .regular := by
  obtain ⟨hlt, hr⟩ := hk.regular o (h.staging k o hk.apart ho)
  exact (h.nodes o hlt).1.trans hr

theorem Ahead.unlink {e : DirEntry} {l : Choice} {a : Except Errno Unit} (hd : d ≠ .target)
    (hk : c → Stale s₁ k) (h : Ahead s₁ c d k (e :: es) s)
    (ho : os (.unlink (d, e.name)) s l = some (a, s')) : Ahead s₁ c d k es s' := by
  have hmono : Ahead s₁ c d k (e :: es) s' ∧
      (c → (d, e.name) = k → s'.lookup k = none) := by
    rcases os_unlink ho with ⟨o, ho, hkind, rfl⟩ | ⟨hdir, rfl⟩
    · refine ⟨⟨h.1.remove hd, fun hc => (h.2 hc).imp_left fun h0 => ?_⟩, fun _ he => ?_⟩
      · simp [Disk.remove, h0]
      · simp [Disk.remove, he]
    · refine ⟨h, fun hc he => Option.eq_none_iff_forall_ne_some.mpr fun o ho' => ?_⟩
      have hreg := (hk hc).kind h.1 ho'
      rw [hdir o (he ▸ ho')] at hreg
      cases hreg
  exact hmono.1.skip fun hc he _ => hmono.2 hc he

theorem sweepEntries_mends (hd : d ≠ .target) (hk : c → Stale s₁ k) :
    Mends (sweepEntries d es) (Ahead s₁ c d k es) fun _ => Ahead s₁ c d k [] := by
  have hP : ∀ {es} s, Ahead s₁ c d k es s → Keeps s₁ s := fun _ h => h.1
  induction es with
  | nil => exact Mends.ret hP fun _ h => h
  | cons e es ih =>
    intro s hs
    have hunlink : Mends (unlinkat (d, e.name) >>= fun _ => sweepEntries d es)
        (Ahead s₁ c d k (e :: es)) fun _ => Ahead s₁ c d k [] :=
      Mends.call hP fun s l a s' hs _ ho => ih _ (hs.unlink hd hk ho)
    unfold sweepEntries
    split_ifs with hsuf
    · cases ht : e.fileType with
      | some t =>
        change machine.Holds _ _ _ (if decide (t = .regular) = true then _ else _) _
        split_ifs with hr
        · exact hunlink s hs
        · refine ih s (hs.skip fun _ _ h => ?_)
          exact absurd (h t ht) (by simpa using hr)
      | none =>
        refine Mends.call hP (fun s l a s' hs hl ho => ?_) s hs
        obtain ⟨rfl, ha⟩ := stat_smooth hl ho
        have hnot (hno : ∀ st, a = .ok st → st.kind ≠ .regular) : Ahead s₁ c d k es s' := by
          refine hs.skip fun hc he _ => Option.eq_none_iff_forall_ne_some.mpr fun o ho' => ?_
          exact hno _ (ha o (he ▸ ho')) ((hk hc).kind hs.1 ho')
        rcases a with e | st
        · exact ih _ (hnot nofun)
        · change machine.Holds _ _ _ (if decide (st.kind = .regular) = true then _ else _) _
          split_ifs with hr
          · exact hunlink _ hs
          · refine ih _ (hnot fun st' h => ?_)
            obtain rfl := Except.ok.inj h
            simpa using hr
    · refine ih s (hs.skip fun hc he _ => absurd ?_ hsuf)
      have hk' := (hk hc).suffix
      rw [← he] at hk'
      exact List.isSuffixOf_iff_suffix.mpr hk'

/-- A sweep of `d` removes what is stale in it, if a listing of it is not cut short. -/
theorem sweepStale_mends (hd : d ≠ .target) (hk : c → Stale s₁ k)
    (hn : (s₁.names d).length < 9998) :
    Mends (sweepStale d) (fun s => Keeps s₁ s ∧ (c → s.lookup k = none ∨ k.1 = d))
      fun _ s => Keeps s₁ s ∧ (c → s.lookup k = none) := by
  have hP : ∀ s, Keeps s₁ s ∧ (c → s.lookup k = none ∨ k.1 = d) → Keeps s₁ s := fun _ h => h.1
  refine Mends.call hP fun s l a s' hs hl ho => ?_
  obtain ⟨rfl, es, rfl, hperm, htype⟩ := list_smooth hl ho
  have hlen : es.length ≤ maxStaleSweep := by
    have := hperm.length_eq
    have := hs.1.names d hd
    simp only [List.length_map, List.length_cons, maxStaleSweep] at *
    omega
  change machine.Holds _ _ _ (sweepEntries d (es.take maxStaleSweep)) _
  rw [List.take_of_length_le hlen]
  refine (sweepEntries_mends hd hk _ ⟨hs.1, fun hc => ?_⟩).mono fun _ s h =>
    ⟨h.1, fun hc => (h.2 hc).resolve_right (by simp)⟩
  cases hlook : s'.lookup k with
  | none => exact Or.inl rfl
  | some o =>
    have hkd := (hs.2 hc).resolve_left (by simp [hlook])
    have hmem : k.2 ∈ es.map DirEntry.name := by
      refine hperm.mem_iff.mpr (List.mem_cons_of_mem _ (List.mem_cons_of_mem _ ?_))
      exact List.mem_filterMap.mpr ⟨(k, o), Files.mem_links_of_lookup hlook, by simp [hkd]⟩
    obtain ⟨e, he, hname⟩ := List.mem_map.mp hmem
    have hek : (d, e.name) = k := by rw [hname, ← hkd]
    refine Or.inr ⟨e, he, hek, fun t ht => ?_⟩
    rw [← htype e he t ht o (hek ▸ hlook)]
    exact (hk hc).kind hs.1 hlook

/-- A staging file that was left in a directory the next `open` can open. -/
structure Leftover (s₁ : Disk) (staging : Staging) (k : Key) : Prop extends Stale s₁ k where
  dir : k.1 = .copies ∨ k.1 = staging.dir
  own : s₁.foreign k.1 = false
  ownTarget : s₁.foreign .target = false
  ownStaging : s₁.foreign staging.dir = false
  present : s₁.Present k.1

theorem openInbox_mends {staging : Staging} (hw : s₁.Wf)
    (hn : ∀ d, d ≠ .target → (s₁.names d).length < 9998) :
    Mends (openInbox staging).run (Keeps s₁)
      fun _ s => Keeps s₁ s ∧ (Leftover s₁ staging k → s.lookup k = none) := by
  have hP : ∀ {c : Prop} s, Keeps s₁ s ∧ (c → s.lookup k = none) → Keeps s₁ s := fun _ h => h.1
  have hsd : staging.dir ≠ .target := by cases staging <;> nofun
  refine Mends.bind_except (openDirs_mends hw) (fun _ s hs => ?_) fun e s hs => ?_
  rotate_left
  · refine ⟨hs.1, fun hk => nomatch hs.2 hk.ownTarget hk.ownStaging ?_⟩
    cases staging with
    | nested =>
      have hd : k.1 = Staging.nested.dir := hk.dir.elim id id
      exact hd ▸ hk.present
    | apart => exact nofun
  have hsweep := sweepStale_mends (k := k) (c := Leftover s₁ staging k ∧ k.1 = staging.dir) hsd
    (fun hc => hc.1.toStale) (hn _ hsd)
  refine Machine.Holds.bind_lift (hsweep s ⟨hs.1, fun hc => Or.inr hc.2⟩) fun _ s hs => ?_
  cases staging with
  | nested => exact Mends.ret hP (fun s hs => ⟨hs.1, fun hk => hs.2 ⟨hk, hk.dir.elim id id⟩⟩) s hs
  | apart =>
    refine Machine.Holds.bind_lift (openExistingAt_mends hP hw s hs) fun r s hr => ?_
    have hrest (hne : r ≠ .ok true) : machine.Holds (fun _ => Smooth) (fun _ => True)
        (fun _ s => Keeps s₁ s ∧ (Leftover s₁ .apart k → s.lookup k = none))
        (.ret (.ok ()) : Prog Ans (Except InboxError Unit)) s := by
      refine Mends.ret hP (fun s hs => ⟨hs.1, fun hk => hs.2 ⟨hk, ?_⟩⟩) s hr.1
      exact hk.dir.resolve_left fun hd => hne (hr.2 (hd ▸ hk.own) (hd ▸ hk.present))
    rcases r with e | _ | _
    · exact hrest nofun
    · exact hrest nofun
    · refine Machine.Holds.bind (sweepStale_mends (k := k) (c := Leftover s₁ .apart k) (by decide)
        (fun hc => hc.toStale) (hn .copies (by decide)) s ⟨hr.1.1, fun hk => ?_⟩)
        fun _ s hs => Mends.ret hP (fun _ h => h) s hs
      exact hk.dir.symm.imp (fun hd => hr.1.2 ⟨hk, hd⟩) id

end Sweep

theorem exists_freeId (s : Disk) : ∃ id, s.FreeId id := by
  obtain ⟨id, hid⟩ :=
    Infinite.exists_notMem_finset ((Finset.range s.next).image fun o => (s.node o).id)
  refine ⟨id, fun o ho _ he => hid ?_⟩
  exact Finset.mem_image.mpr ⟨o, Finset.mem_range.mpr ho, he⟩

theorem exists_smooth (c : Call) (s : Disk) :
    ∃ l a s', Smooth (.answer l) ∧ os c s l = some (a, s') := by
  have hanswer : ∀ l, (∀ e, l ≠ .fails e) → Smooth (.answer l) :=
    fun l h => ⟨trivial, fun e he => h e (Label.answer.inj he)⟩
  suffices h : ∃ l, (∀ e, l ≠ .fails e) ∧ (os c s l).isSome by
    obtain ⟨l, hl, ho⟩ := h
    obtain ⟨⟨a, s'⟩, h⟩ := Option.isSome_iff_exists.mp ho
    exact ⟨l, a, s', hanswer l hl, h⟩
  obtain ⟨id, hid⟩ := exists_freeId s
  cases c with
  | openDir | chmod | fstat | sync | seek | close => exact ⟨.done, by simp, rfl⟩
  | statDir => exact ⟨.mode 0, by simp, rfl⟩
  | random => exact ⟨.draws (List.replicate 16 0), by simp, rfl⟩
  | write | flush => exact ⟨.stops 0 .cancelled, by simp, rfl⟩
  | mkdir d =>
    by_cases hd : d = .copies
    · refine ⟨.numbered id, by simp, ?_⟩
      change (Os.mkdir d s (.numbered id)).isSome
      rw [Os.mkdir, if_pos ⟨hd, hid⟩]
      split <;> rfl
    · refine ⟨.done, by simp, ?_⟩
      change (Os.mkdir d s .done).isSome
      rw [Os.mkdir, if_neg hd]
      rfl
  | create k =>
    by_cases hp : s.Present k.1
    · refine ⟨.numbered id, by simp, ?_⟩
      change (Os.create k s (.numbered id)).isSome
      rw [Os.create, if_pos ⟨hp, hid⟩]
      split <;> rfl
    · refine ⟨.done, by simp, ?_⟩
      change (Os.create k s .done).isSome
      rw [Os.create, if_neg hp]
      rfl
  | stat k last =>
    refine ⟨.done, by simp, ?_⟩
    change (Os.stat k last s .done).isSome
    simp only [Os.stat]
    split <;> rfl
  | link k k' =>
    refine ⟨.done, by simp, ?_⟩
    change (Os.link k k' s .done).isSome
    simp only [Os.link]
    split <;> try split_ifs
    all_goals rfl
  | rename k k' =>
    refine ⟨.done, by simp, ?_⟩
    change (Os.rename k k' s .done).isSome
    simp only [Os.rename]
    split <;> rfl
  | unlink k =>
    refine ⟨.done, by simp, ?_⟩
    change (Os.unlink k s .done).isSome
    simp only [Os.unlink]
    split <;> try split_ifs
    all_goals rfl
  | read o max =>
    let rest := (s.node o).data.drop (s.node o).pos
    have hempty (h : min max rest.length = 0) : max = 0 ∨ rest = [] :=
      (Nat.min_eq_zero_iff.mp h).imp_right List.eq_nil_of_length_eq_zero
    refine ⟨.takes (min max rest.length), by simp, ?_⟩
    change (Os.read o max s (.takes (min max rest.length))).isSome
    rw [Os.read, if_pos ⟨min_le_left _ _, min_le_right _ _, hempty⟩]
    rfl
  | list d =>
    let es : List DirEntry := (".".toList :: "..".toList :: s.names d).map fun n => ⟨n, none⟩
    have hl : s.Lists d es := ⟨by simp [es, List.map_map, Function.comp_def], by simp [es]⟩
    refine ⟨.lists es, by simp, ?_⟩
    change (Os.list d s (.lists es)).isSome
    rw [Os.list, if_pos hl]
    rfl

section Runs

variable {Digest : Type} [DecidableEq Digest] {sha256 : Bytes → Digest} {s₀ : Disk}
  {staging : Staging} {name : SafeName} {size : ℕ} {expected : Option Digest} {chunks : List Bytes}
  {commits : Bool} {ls : List (Label Choice Act)} {p : Prog Ans Outcome}

theorem keeps_killed (s : Disk) : Keeps s.killed s.killed :=
  ⟨fun _ => rfl, rfl, fun _ _ => ⟨rfl, rfl⟩, fun _ _ => rfl, fun _ h => h, fun _ _ _ h => h, le_rfl,
    fun _ _ => le_rfl⟩

theorem wf_killed (h : s.Wf) : s.killed.Wf := by
  have hlive : ∀ o, s.killed.Live o → s.Live o := by
    rintro o (ho | ho | ho)
    · exact Or.inl ho
    · cases ho
    · exact absurd rfl ho
  exact ⟨fun o ho => h.bound o (hlive o ho),
    fun o o' ho ho' => h.distinct o o' (hlive o ho) (hlive o' ho')⟩

theorem Base.leftover {k : Key} (h : Base w X T s) (hq : ¬ w.rival) (hk : k ∈ X) :
    Leftover s.killed w.staging k := by
  obtain ⟨hpart, -, hpres⟩ := (h.quiet hq).keys k hk
  refine ⟨⟨hpart.ne_target, hpart.suffix, fun o ho => ?_⟩, hpart.dir, ?_, ?_, ?_, hpres⟩
  · exact ⟨h.wf.bound o (Files.live_of_lookup (s := s.toFiles) ho),
      ((h.quiet hq).own k hk o ho).2.2⟩
  · exact h.foreign ▸ hpart.own
  · exact h.foreign ▸ hpart.target
  · exact h.foreign ▸ hpart.staging

/-- Killed at any point, a process leaves whole files and staging files, and the next `open`
removes the staging files and nothing else of what it left. -/
theorem killed_and_swept (h₀ : Untouched s₀) (hq : ∀ l ∈ ls, Silent l)
    (hrun : exec machine.step (receive sha256 staging name size expected chunks commits, s₀) ls =
      some (p, s)) :
    Crashed s₀ staging (fun b => b = chunks.flatten ∧ b.length = size ∧
      ∀ d, expected = some d → sha256 b = d) s.killed ∧
    (∃ ls' r s', (∀ l ∈ ls', Smooth l) ∧
      exec machine.step ((openInbox staging).run, s.killed) ls' = some (.ret r, s')) ∧
    ∀ ls' r s', (∀ l ∈ ls', Smooth l) →
      (∀ d, d ≠ .target → (s.killed.names d).length < 9998) →
      exec machine.step ((openInbox staging).run, s.killed) ls' = some (.ret r, s') →
      Keeps s.killed s' ∧ ∀ k o, k.1 ≠ .target → s'.lookup k = some o → s₀.lookup k = some o := by
  obtain ⟨⟨X, T, hB⟩, -⟩ := receive_run h₀ False (along_permits_of_silent hq) hrun
  refine ⟨hB.crashed id, exists_exec_ret (m := machine) exists_smooth _ _, ?_⟩
  intro ls' r s' hls hn hrun'
  have hend (k : Key) := ((openInbox_mends (k := k) (wf_killed hB.wf) hn _ (keeps_killed s)).of_exec
    (along_of_forall hls) hrun').result
  have hkeeps := (hend (.target, [])).1
  refine ⟨hkeeps, fun k o hk ho => ?_⟩
  by_cases hX : k ∈ X
  · rw [(hend k).2 (hB.leftover id hX)] at ho
    cases ho
  · exact ((hB.quiet id).links k hk hX).symm.trans (hkeeps.staging k o hk ho)

end Runs

/-- The choices of an `open` that finds the staging file of zeros. -/
def reopening : List Choice :=
  [.done, .mode 0o700, .done, .mode 0o700,
    .lists [⟨".".toList, some .directory⟩, ⟨zeroPart, none⟩, ⟨"..".toList, some .directory⟩],
    .done, .done, .done]

theorem killed_and_swept_staged : ∃ p s s',
    exec machine.step (receiveEmpty .apart, blank) (answers staged) = some (p, s) ∧
    s.killed.lookup (.staging, zeroPart) = some 0 ∧
    exec machine.step ((openInbox .apart).run, s.killed) (answers reopening) =
      some (.ret (.ok ()), s') ∧
    ∀ k o, k.1 ≠ .target → s'.lookup k = some o → blank.lookup k = some o := by
  have hrun : ((exec machine.step (receiveEmpty .apart, blank) (answers staged)).any fun c =>
      c.2.killed.lookup (.staging, zeroPart) = some 0 ∧
      (c.2.killed.names .copies).length < 9998 ∧ (c.2.killed.names .staging).length < 9998 ∧
      ((exec machine.step ((openInbox .apart).run, c.2.killed) (answers reopening)).any fun c =>
        c.1.result = some (.ok ()) ∧ True) = true) = true := by decide +kernel
  obtain ⟨⟨p, s⟩, hs, hc⟩ := (Option.any_eq_true ..).mp hrun
  obtain ⟨hlook, hn1, hn2, hopen⟩ := of_decide_eq_true hc
  obtain ⟨s', hs', -⟩ := exec_ret_of_any (P := fun _ => True) hopen
  have hq : ∀ l ∈ answers staged, Silent l := List.forall_mem_map.mpr fun _ _ => trivial
  have hsmooth : ∀ l ∈ answers reopening, Smooth l := by
    refine List.forall_mem_map.mpr fun c hc => ⟨trivial, ?_⟩
    rintro e ⟨⟩
    simp [reopening] at hc
  refine ⟨p, s, s', hs, hlook, hs', ?_⟩
  refine ((killed_and_swept untouched_blank hq hs).2.2 _ _ _ hsmooth (fun d hd => ?_) hs').2
  cases d with
  | target => exact absurd rfl hd
  | copies => exact hn1
  | staging => exact hn2

end Sukkula.Inbox
