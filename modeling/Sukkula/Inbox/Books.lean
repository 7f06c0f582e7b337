import Sukkula.Inbox.Incoming

/-! # What stays true between two calls

The disk drifts between the calls of the inbox: bytes land, and other processes
act on the staging directories. `Books` says what the disk holds next to what it
held at the start: the target's entries, and, with no other process about, the
few entries and inodes that this file added. The other assertions are about one
inode. All of them survive the drift.
-/

namespace Sukkula.Inbox

open Str Machine

/-- No inode is this file's yet, and nothing is on its way. -/
structure Untouched (s : Disk) : Prop where
  wf : s.Wf
  ours : ∀ o, (s.node o).ours = false
  pending : ∀ o, (s.node o).pending = []

/-- The setting of a run: the disk it starts from, whether other processes act, how many bytes
are declared, and which contents are the whole file. -/
structure Setting where
  start : Disk
  untouched : Untouched start
  rival : Prop
  staging : Staging
  declared : ℕ
  Whole : Bytes → Prop

/-- Acts between the calls. Another process leaves the target's entries and this file's inodes
alone, and gives no new file the number of an inode this file made and has not removed. -/
def Permits (rival : Prop) (s : Disk) : Label Choice Act → Prop
  | .answer _ | .env (.land ..) | .env (.lose _) => True
  | .env (.unlink k) => rival ∧ k.1 ≠ .target
  | .env (.link _ k') => rival ∧ k'.1 ≠ .target
  | .env (.create k id _ _) => rival ∧ k.1 ≠ .target ∧
      ∀ o < s.next, (s.node o).ours → (s.node o).removed = false → id ≠ (s.node o).id
  | .env (.alter o _) => rival ∧ (s.node o).ours = false

@[simp] theorem Disk.on_toFiles (s : Disk) (f : Files Key) : (s.on f).toFiles = f := rfl

inductive Drift (rival : Prop) (s : Disk) : Disk → Prop
  | land (o n) : (s.node o).pending ≠ [] → Drift rival s (s.land o n)
  | lose (o) : (s.node o).pending ≠ [] →
      Drift rival s (s.on (s.touch o { s.node o with pending := [], lost := true }))
  | alter (o data) : rival → (s.node o).ours = false →
      Drift rival s (s.on (s.touch o { s.node o with data := data }))
  | unlink (k) : rival → k.1 ≠ .target → Drift rival s (s.on (s.unlink k))
  | link (k k' o) : rival → k'.1 ≠ .target → s.lookup k = some o → s.kind o ≠ .directory →
      s.lookup k' = none → Drift rival s (s.on (s.link k' o))
  | create (k id kind data) : rival → k.1 ≠ .target → s.FreeId id → kind ≠ .directory →
      (∀ o < s.next, (s.node o).ours → (s.node o).removed = false → id ≠ (s.node o).id) →
      Drift rival s (s.on (s.add k (.new id kind data false)))

variable {rival : Prop} {s s' : Disk} {a : Act}

theorem Disk.land_of_pending {o n : ℕ} (h : (s.node o).pending = []) : s.land o n = s := by
  have hnode : { s.node o with
      data := (s.node o).data ++ (s.node o).pending.take n
      pending := (s.node o).pending.drop n } = s.node o := by
    ext1 <;> simp [h]
  unfold Disk.land Disk.on Files.touch
  rw [hnode, Function.update_eq_self]

theorem Drift.of_env (hg : Permits rival s (.env a)) (h : env s a = some s') :
    s' = s ∨ Drift rival s s' := by
  cases a with
  | land o n =>
    obtain rfl : s.land o n = s' := Option.some.inj h
    by_cases hp : (s.node o).pending = []
    · exact Or.inl (Disk.land_of_pending hp)
    · exact Or.inr (.land o n hp)
  | lose o =>
    simp only [env] at h
    split_ifs at h with hp
    exact Or.inr (Option.some.inj h ▸ .lose o hp)
  | unlink k => exact Or.inr (Option.some.inj h ▸ .unlink k hg.1 hg.2)
  | link k k' =>
    simp only [env] at h
    split at h
    · split_ifs at h with hd
      exact Or.inr (Option.some.inj h ▸ .link k k' _ hg.1 hg.2 ‹_› hd ‹_›)
    · cases h
  | create k id kind data =>
    simp only [env] at h
    split_ifs at h with hc
    exact Or.inr (Option.some.inj h ▸ .create k id kind data hg.1 hg.2.1 hc.2.1 hc.2.2.2 hg.2.2)
  | alter o data => exact Or.inr (Option.some.inj h ▸ .alter o data hg.1 hg.2)

def Steady (rival : Prop) (P : Disk → Prop) : Prop := ∀ s s', P s → Drift rival s s' → P s'

theorem Steady.stable {P : Disk → Prop} (h : Steady rival P) :
    machine.Stable (Permits rival) P := by
  intro s a s' hs hg he
  rcases Drift.of_env hg he with rfl | hd
  · exact hs
  · exact h s s' hs hd

theorem Steady.land {P : Disk → Prop} (h : Steady rival P) {o n : ℕ} (hs : P s) :
    P (s.land o n) := by
  by_cases hp : (s.node o).pending = []
  · rwa [Disk.land_of_pending hp]
  · exact h s _ hs (.land o n hp)

theorem Steady.and {P Q : Disk → Prop} (hP : Steady rival P) (hQ : Steady rival Q) :
    Steady rival fun s => P s ∧ Q s :=
  fun s s' h hd => ⟨hP s s' h.1 hd, hQ s s' h.2 hd⟩

theorem Steady.exists {ι : Sort*} {P : ι → Disk → Prop} (h : ∀ i, Steady rival (P i)) :
    Steady rival fun s => ∃ i, P i s :=
  fun s s' ⟨i, hi⟩ hd => ⟨i, h i s s' hi hd⟩

theorem Steady.imp {p : Prop} {P : Disk → Prop} (h : Steady rival P) :
    Steady rival fun s => p → P s :=
  fun s s' hs hd hp => h s s' (hs hp) hd

theorem Steady.const (p : Prop) : Steady rival fun _ => p := fun _ _ h _ => h

namespace Drift

variable {o : ℕ}

theorem next_le (h : Drift rival s s') : s.next ≤ s'.next := by
  cases h <;> first | exact le_rfl | exact Nat.le_succ _

theorem opened_eq (h : Drift rival s s') : s'.opened = s.opened := by
  cases h <;> rfl

theorem flags (h : Drift rival s s') : s'.statFailed = s.statFailed ∧ s'.drewTaken = s.drewTaken ∧
    s'.foreign = s.foreign := by
  cases h <;> exact ⟨rfl, rfl, rfl⟩

theorem lookup_target (h : Drift rival s s') (n : Str) :
    s'.lookup (.target, n) = s.lookup (.target, n) := by
  cases h with
  | land | lose | alter => rfl
  | unlink k _ hk | create k _ _ _ _ hk =>
    have hne : (Dir.target, n) ≠ k := by rintro rfl; exact hk rfl
    simp [hne]
  | link k k' o _ hk =>
    have hne : (Dir.target, n) ≠ k' := by rintro rfl; exact hk rfl
    simp [hne]

theorem lookup_quiet (h : Drift rival s s') (hq : ¬ rival) (k : Key) :
    s'.lookup k = s.lookup k := by
  cases h with
  | land | lose => rfl
  | alter _ _ hr | unlink _ hr | link _ _ _ hr | create _ _ _ _ hr => exact absurd hr hq

theorem node (h : Drift rival s s') (ho : o < s.next) :
    (s'.node o).id = (s.node o).id ∧ (s'.node o).kind = (s.node o).kind ∧
      (s'.node o).ours = (s.node o).ours ∧ (s'.node o).removed = (s.node o).removed ∧
      (s'.node o).pos = (s.node o).pos := by
  cases h with
  | land x | lose x | alter x =>
    simp only [Disk.land, Disk.on_toFiles, Files.node_touch]
    split_ifs with hx <;> simp [hx]
  | unlink | link => exact ⟨rfl, rfl, rfl, rfl, rfl⟩
  | create =>
    simp only [Disk.on_toFiles, Files.node_add, if_neg (ne_of_lt ho), and_self]

/-- An inode of this file with nothing on its way stays as it is. -/
theorem node_eq (h : Drift rival s s') (ho : o < s.next) (hours : (s.node o).ours)
    (hp : (s.node o).pending = []) : s'.node o = s.node o := by
  cases h with
  | land x _ hx | lose x hx =>
    have hne : o ≠ x := by rintro rfl; exact hx hp
    simp [Disk.land, Files.node_touch, hne]
  | alter x _ _ hx =>
    have hne : o ≠ x := by rintro rfl; simp [hours] at hx
    simp [Files.node_touch, hne]
  | unlink | link => rfl
  | create => simp [Files.node_add, ne_of_lt ho]

theorem node_quiet (h : Drift rival s s') (hq : ¬ rival) (hp : (s.node o).pending = []) :
    s'.node o = s.node o := by
  cases h with
  | land x _ hx | lose x hx =>
    have hne : o ≠ x := by rintro rfl; exact hx hp
    simp [Disk.land, Files.node_touch, hne]
  | alter _ _ hr | unlink _ hr | link _ _ _ hr | create _ _ _ _ hr => exact absurd hr hq

/-- No act makes an inode of this file, or makes one longer than it was going to be. -/
theorem size_le (h : Drift rival s s') (ho : (s'.node o).ours) : (s.node o).ours ∧
    (s'.node o).data.length + (s'.node o).pending.length ≤
      (s.node o).data.length + (s.node o).pending.length := by
  cases h with
  | land x n =>
    simp only [Disk.land, Disk.on_toFiles, Files.node_touch] at ho ⊢
    split_ifs at ho ⊢ with hx
    · subst hx
      refine ⟨ho, ?_⟩
      simp only [List.length_append, List.length_take, List.length_drop]
      omega
    · exact ⟨ho, le_rfl⟩
  | lose x =>
    simp only [Disk.on_toFiles, Files.node_touch] at ho ⊢
    split_ifs at ho ⊢ with hx
    · subst hx
      exact ⟨ho, by simp⟩
    · exact ⟨ho, le_rfl⟩
  | alter x _ _ hx =>
    simp only [Disk.on_toFiles, Files.node_touch] at ho ⊢
    split_ifs at ho ⊢ with he
    · rw [hx] at ho
      cases ho
    · exact ⟨ho, le_rfl⟩
  | unlink | link => exact ⟨ho, le_rfl⟩
  | create =>
    simp only [Disk.on_toFiles, Files.node_add] at ho ⊢
    split_ifs at ho ⊢
    · cases ho
    · exact ⟨ho, le_rfl⟩

theorem wf (h : Drift rival s s') (hw : s.Wf) : s'.Wf := by
  cases h with
  | land o n hp => exact hw.touch rfl fun _ => Or.inr (Or.inr hp)
  | lose o hp => exact hw.touch rfl fun h => absurd rfl h
  | alter o d => exact hw.touch rfl fun hp => Or.inr (Or.inr hp)
  | unlink => exact hw.unlink
  | link k k' o _ _ hk => exact hw.link (Files.live_of_lookup hk)
  | create k id kind d _ _ hid => exact hw.add hid

end Drift

section Ledger

variable (w : Setting)

def Setting.entries (n : Str) : Option ℕ := w.start.lookup (.target, n)

/-- A name that a staging file of this run may have, in directories that were checked. -/
structure Setting.PartKey (k : Key) : Prop where
  dir : k.1 = .copies ∨ k.1 = w.staging.dir
  suffix : partSuffix <:+ k.2
  own : w.start.foreign k.1 = false
  target : w.start.foreign .target = false
  staging : w.start.foreign w.staging.dir = false

variable {w} in
theorem Setting.PartKey.ne_target {k : Key} (h : w.PartKey k) : k.1 ≠ .target := by
  rcases h.dir with h | h <;> rw [h]
  · nofun
  · cases w.staging <;> nofun

/-- The inode is a whole file that this run made. -/
structure Setting.IsWhole (o : ℕ) (s : Disk) : Prop where
  start_le : w.start.next ≤ o
  bound : o < s.next
  ours : (s.node o).ours
  regular : (s.node o).kind = .regular
  pending : (s.node o).pending = []
  whole : w.Whole (s.node o).data

/-- With no other process about: the entries `X` in the staging directories are this run's, and
everything that was there is as it was, but for whole files in the target. -/
structure Quiet (X : List Key) (T : Str → Option ℕ) (s : Disk) : Prop where
  links : ∀ k, k.1 ≠ .target → k ∉ X → s.lookup k = w.start.lookup k
  nodes : ∀ o < w.start.next, s.node o = w.start.node o
  keys : ∀ k ∈ X, w.PartKey k ∧ w.start.lookup k = none ∧ s.Present k.1
  own : ∀ k ∈ X, ∀ o, s.lookup k = some o →
    w.start.next ≤ o ∧ (s.node o).ours ∧ (s.node o).kind = .regular
  target : ∀ n, T n = w.entries n ∨ w.entries n = none ∧ ∃ o, T n = some o ∧ w.IsWhole o s

/-- The disk as the ledger has it: the target's entries are `T`, next to `.partial`. -/
structure Base (X : List Key) (T : Str → Option ℕ) (s : Disk) : Prop where
  wf : s.Wf
  grown : w.start.next ≤ s.next
  foreign : s.foreign = w.start.foreign
  sized : ∀ o, (s.node o).ours → (s.node o).data.length + (s.node o).pending.length ≤ w.declared
  target : ∀ n, n ≠ stagingDir → s.lookup (.target, n) = T n
  copies : s.lookup (.target, stagingDir) = w.entries stagingDir ∨
    w.entries stagingDir = none ∧ ∃ o, s.lookup (.target, stagingDir) = some o ∧
      w.start.next ≤ o ∧ (s.node o).kind = .directory
  quiet : ¬ w.rival → Quiet w X T s

/-- The ledger, with entries that were left behind only if a `stat` failed. -/
def Books (K : List Key) (T : Str → Option ℕ) (s : Disk) : Prop :=
  ∃ Z, Base w (Z ++ K) T s ∧ (s.statFailed = false → Z = [])

end Ledger

variable {w : Setting} {X K : List Key} {T : Str → Option ℕ} {k : Key} {o : ℕ} {n dest : Str}
  {i : Inode}

theorem Setting.IsWhole.drift (h : w.IsWhole o s) (hd : Drift rival s s') : w.IsWhole o s' := by
  have he := hd.node_eq h.bound h.ours h.pending
  exact ⟨h.start_le, h.bound.trans_le hd.next_le, he ▸ h.ours, he ▸ h.regular, he ▸ h.pending,
    he ▸ h.whole⟩

theorem Disk.Present.drift {d : Dir} (h : s.Present d) (hw : s.Wf) (hd : Drift rival s s') :
    s'.Present d := by
  intro hc
  obtain ⟨o, ho, hk⟩ := h hc
  exact ⟨o, (hd.lookup_target _).trans ho,
    (hd.node (hw.bound o (Files.live_of_lookup ho))).2.1.trans hk⟩

theorem Quiet.drift (h : Quiet w X T s) (hw : s.Wf) (hq : ¬ rival) (hd : Drift rival s s') :
    Quiet w X T s' where
  links k hk hX := (hd.lookup_quiet hq k).trans (h.links k hk hX)
  nodes o ho := by
    have hp : (s.node o).pending = [] := by rw [h.nodes o ho]; exact w.untouched.pending o
    rw [hd.node_quiet hq hp, h.nodes o ho]
  keys k hk := ⟨(h.keys k hk).1, (h.keys k hk).2.1, (h.keys k hk).2.2.drift hw hd⟩
  own k hk o ho := by
    rw [hd.lookup_quiet hq] at ho
    have hb := hw.bound o (Files.live_of_lookup ho)
    obtain ⟨h1, h2, h3, -⟩ := hd.node hb
    obtain ⟨g1, g2, g3⟩ := h.own k hk o ho
    exact ⟨g1, h3.trans g2, h2.trans g3⟩
  target n := by
    rcases h.target n with h | ⟨h0, o, ho, hw⟩
    · exact Or.inl h
    · exact Or.inr ⟨h0, o, ho, hw.drift hd⟩

namespace Base

theorem steady : Steady w.rival (Base w X T) := by
  intro s s' h hd
  refine ⟨hd.wf h.wf, h.grown.trans hd.next_le, hd.flags.2.2.trans h.foreign, fun o ho => ?_,
    fun n hn => (hd.lookup_target n).trans (h.target n hn), ?_,
    fun hq => (h.quiet hq).drift h.wf hq hd⟩
  · obtain ⟨ho', hle⟩ := hd.size_le ho
    exact hle.trans (h.sized o ho')
  · rw [hd.lookup_target]
    rcases h.copies with h' | ⟨h0, o, ho, hle, hk⟩
    · exact Or.inl h'
    · have hb := h.wf.bound o (Files.live_of_lookup ho)
      exact Or.inr ⟨h0, o, ho, hle, (hd.node hb).2.1.trans hk⟩

theorem congr (h : Base w X T s) (hf : s'.toFiles = s.toFiles) (hfor : s'.foreign = s.foreign) :
    Base w X T s' := by
  cases s
  cases s'
  obtain rfl := hf
  obtain rfl := hfor
  exact ⟨h.wf, h.grown, h.foreign, h.sized, h.target, h.copies,
    fun hq => ⟨(h.quiet hq).links, (h.quiet hq).nodes, (h.quiet hq).keys, (h.quiet hq).own,
      fun n => (h.quiet hq).target n |>.imp_right fun ⟨h0, o, ho, hw⟩ =>
        ⟨h0, o, ho, ⟨hw.1, hw.2, hw.3, hw.4, hw.5, hw.6⟩⟩⟩⟩

theorem keys_congr {Y : List Key} (h : Base w X T s) (hXY : ∀ k, k ∈ X ↔ k ∈ Y) : Base w Y T s :=
  { h with
    quiet := fun hq =>
      { h.quiet hq with
        links := fun k hk hY => (h.quiet hq).links k hk fun hX => hY ((hXY k).mp hX)
        keys := fun k hk => (h.quiet hq).keys k ((hXY k).mpr hk)
        own := fun k hk => (h.quiet hq).own k ((hXY k).mpr hk) } }

theorem forget (h : Base w (k :: X) T s) (hk : ¬ w.rival → s.lookup k = none) : Base w X T s :=
  { h with
    quiet := fun hq =>
      { h.quiet hq with
        links := fun k' ht hX => by
          by_cases he : k' = k
          · rw [he, hk hq, ((h.quiet hq).keys k (by simp)).2.1]
          · exact (h.quiet hq).links k' ht (by simp [he, hX])
        keys := fun k' hk' => (h.quiet hq).keys k' (List.mem_cons_of_mem _ hk')
        own := fun k' hk' => (h.quiet hq).own k' (List.mem_cons_of_mem _ hk') } }

theorem touch (h : Base w X T s) (hid : i.id = (s.node o).id) (hkind : i.kind = (s.node o).kind)
    (hours : i.ours = (s.node o).ours) (hb : w.start.next ≤ o ∨ w.rival)
    (hlive : i.pending ≠ [] → s.Live o)
    (hsize : i.ours → i.data.length + i.pending.length ≤ w.declared)
    (hT : ∀ n, T n = some o → i.data = (s.node o).data ∧ i.pending = (s.node o).pending) :
    Base w X T (s.on (s.touch o i)) := by
  have hk : ∀ x, ((s.touch o i).node x).kind = (s.node x).kind := by
    intro x
    rw [Files.node_touch]
    split_ifs with hx
    · rw [hkind, hx]
    · rfl
  have ho : ∀ x, ((s.touch o i).node x).ours = (s.node x).ours := by
    intro x
    rw [Files.node_touch]
    split_ifs with hx
    · rw [hours, hx]
    · rfl
  refine ⟨h.wf.touch hid hlive, h.grown, h.foreign, fun x hx => ?_, h.target, ?_, fun hq => ?_⟩
  · simp only [Disk.on_toFiles, Files.node_touch] at hx ⊢
    split_ifs at hx ⊢
    · exact hsize hx
    · exact h.sized x hx
  · exact h.copies.imp_right fun ⟨h0, x, hx, hle, hd⟩ => ⟨h0, x, hx, hle, (hk x).trans hd⟩
  · have hQ := h.quiet hq
    have hb := hb.resolve_right hq
    refine ⟨hQ.links, fun x hx => ?_, fun k hk' => ⟨(hQ.keys k hk').1, (hQ.keys k hk').2.1,
      fun hc => ?_⟩, fun k hk' x hx => ?_, fun n => ?_⟩
    · have hne : x ≠ o := by omega
      simp only [Disk.on_toFiles, Files.node_touch, if_neg hne, hQ.nodes x hx]
    · obtain ⟨x, hx, hd⟩ := (hQ.keys k hk').2.2 hc
      exact ⟨x, hx, (hk x).trans hd⟩
    · obtain ⟨h1, h2, h3⟩ := hQ.own k hk' x hx
      exact ⟨h1, (ho x).trans h2, (hk x).trans h3⟩
    · refine (hQ.target n).imp_right fun ⟨h0, x, hx, hw⟩ => ⟨h0, x, hx, hw.1, hw.2, ?_, ?_, ?_, ?_⟩
      · exact (ho x).trans hw.3
      · exact (hk x).trans hw.4
      all_goals
        simp only [Disk.on_toFiles, Files.node_touch]
        split_ifs with he
        · subst he
          obtain ⟨h1, h2⟩ := hT n hx
          first | rw [h2, hw.5] | exact h1 ▸ hw.6
        · first | exact hw.5 | exact hw.6

theorem close (h : Base w X T s) : Base w X T (s.on (s.close o)) :=
  ⟨h.wf.close, h.grown, h.foreign, h.sized, h.target, h.copies, fun hq =>
    ⟨(h.quiet hq).links, (h.quiet hq).nodes, (h.quiet hq).keys, (h.quiet hq).own, fun n =>
      ((h.quiet hq).target n).imp_right fun ⟨h0, x, hx, hw⟩ =>
        ⟨h0, x, hx, ⟨hw.1, hw.2, hw.3, hw.4, hw.5, hw.6⟩⟩⟩⟩

theorem unlink (h : Base w X T s) (hk : k.1 ≠ .target) (hX : ¬ w.rival → k ∈ X) :
    Base w X T (s.on (s.unlink k)) := by
  have hne : ∀ n, (Dir.target, n) ≠ k := by rintro n rfl; exact hk rfl
  refine ⟨h.wf.unlink, h.grown, h.foreign, h.sized, fun n hn => ?_, ?_, fun hq => ?_⟩
  · simpa [hne n] using h.target n hn
  · simpa [hne] using h.copies
  · have hQ := h.quiet hq
    refine ⟨fun k' ht hX' => ?_, hQ.nodes, fun k' hk' => ⟨(hQ.keys k' hk').1, (hQ.keys k' hk').2.1,
      fun hc => ?_⟩, fun k' hk' x hx => ?_, fun n => ?_⟩
    · have hkk : k' ≠ k := by rintro rfl; exact hX' (hX hq)
      simpa [hkk] using hQ.links k' ht hX'
    · obtain ⟨x, hx, hd⟩ := (hQ.keys k' hk').2.2 hc
      exact ⟨x, by simpa [hne] using hx, hd⟩
    · simp only [Disk.on_toFiles, Files.lookup_unlink] at hx
      split_ifs at hx
      exact hQ.own k' hk' x hx
    · exact (hQ.target n).imp_right fun ⟨h0, x, hx, hw⟩ =>
        ⟨h0, x, hx, ⟨hw.1, hw.2, hw.3, hw.4, hw.5, hw.6⟩⟩

theorem create {id : FileId} (h : Base w X T s) (hk : w.PartKey k) (hp : s.Present k.1)
    (hid : s.FreeId id) (hnone : s.lookup k = none) :
    Base w (k :: X) T (s.on ((s.add k (.new id .regular [] true)).openFile s.next)) := by
  have hkt := hk.ne_target
  have hne : ∀ n, (Dir.target, n) ≠ k := by rintro n rfl; exact hkt rfl
  have hlive : ∀ x, s.Live x → x ≠ s.next := fun x hx => ne_of_lt (h.wf.bound x hx)
  have hpres : ∀ d, s.Present d → (s.on ((s.add k (.new id .regular [] true)).openFile
      s.next)).Present d := by
    intro d hd hc
    obtain ⟨x, hx, hkind⟩ := hd hc
    refine ⟨x, by simpa [hne] using hx, ?_⟩
    simpa [Disk.kind, Files.node_add, hlive x (Files.live_of_lookup hx)] using hkind
  refine ⟨?_, h.grown.trans (Nat.le_succ _), h.foreign, fun x hx => ?_, fun n hn => ?_, ?_,
    fun hq => ?_⟩
  · exact (h.wf.add hid).openFile (Or.inl (by simp [Files.add]))
  · simp only [Disk.on_toFiles, Files.node_openFile, Files.node_add] at hx ⊢
    split_ifs at hx ⊢
    · simp [Inode.new]
    · exact h.sized x hx
  · simpa [hne n] using h.target n hn
  · simp only [Disk.on_toFiles, Files.lookup_openFile, Files.lookup_add, if_neg (hne _),
      Files.node_openFile, Files.node_add]
    refine h.copies.imp_right fun ⟨h0, x, hx, hle, hd⟩ => ⟨h0, x, hx, hle, ?_⟩
    rw [if_neg (hlive x (Files.live_of_lookup hx)), hd]
  · have hQ := h.quiet hq
    have hstart : w.start.lookup k = none := by
      by_cases hX : k ∈ X
      · exact (hQ.keys k hX).2.1
      · rw [← hQ.links k hkt hX, hnone]
    refine ⟨fun k' ht hX => ?_, fun x hx => ?_, fun k' hk' => ?_,
      fun k' hk' x hx => ?_, fun n => ?_⟩
    · obtain ⟨h1, h2⟩ := not_or.mp (fun h' => hX (List.mem_cons.mpr h'))
      simpa [h1] using hQ.links k' ht h2
    · have hxn : x ≠ s.next := ne_of_lt (hx.trans_le h.grown)
      simpa [Files.node_add, hxn] using hQ.nodes x hx
    · rcases List.mem_cons.mp hk' with rfl | hk'
      · exact ⟨hk, hstart, hpres _ hp⟩
      · obtain ⟨h1, h2, h3⟩ := hQ.keys k' hk'
        exact ⟨h1, h2, hpres _ h3⟩
    · simp only [Disk.on_toFiles, Files.lookup_openFile, Files.lookup_add] at hx
      simp only [Disk.on_toFiles, Files.node_openFile, Files.node_add]
      split_ifs at hx with he
      · obtain rfl : s.next = x := Option.some.inj hx
        simp [Inode.new, h.grown]
      · rw [if_neg (hlive x (Files.live_of_lookup hx))]
        exact hQ.own k' ((List.mem_cons.mp hk').resolve_left he) x hx
    · refine (hQ.target n).imp_right fun ⟨h0, x, hx, hw⟩ => ⟨h0, x, hx, ?_⟩
      have hxn : x ≠ s.next := ne_of_lt hw.bound
      have hnode : (s.on ((s.add k (.new id .regular [] true)).openFile s.next)).node x =
          s.node x := by
        simp [Files.node_add, hxn]
      exact ⟨hw.1, hw.2.trans (Nat.lt_succ_self _), hnode ▸ hw.3, hnode ▸ hw.4, hnode ▸ hw.5,
        hnode ▸ hw.6⟩

theorem mkdir {id : FileId} (h : Base w X T s) (hid : s.FreeId id)
    (hnone : s.lookup (.target, stagingDir) = none) :
    Base w X T (s.on (s.add (.target, stagingDir) (.new id .directory [] false))) := by
  have hlive : ∀ x, s.Live x → x ≠ s.next := fun x hx => ne_of_lt (h.wf.bound x hx)
  refine ⟨h.wf.add hid, h.grown.trans (Nat.le_succ _), h.foreign, fun x hx => ?_,
    fun n hn => ?_, ?_, fun hq => ?_⟩
  · simp only [Disk.on_toFiles, Files.node_add] at hx ⊢
    split_ifs at hx ⊢
    · simp [Inode.new]
    · exact h.sized x hx
  · have hne : ((Dir.target, n) : Key) ≠ (.target, stagingDir) := fun he => hn (Prod.mk.inj he).2
    simpa [hne] using h.target n hn
  · rcases h.copies with h0 | ⟨-, o, ho, -⟩
    · refine Or.inr ⟨h0.symm.trans hnone, s.next, by simp, h.grown, ?_⟩
      simp [Files.node_add, Inode.new]
    · rw [hnone] at ho
      cases ho
  · have hQ := h.quiet hq
    refine ⟨fun k ht hX => ?_, fun x hx => ?_, fun k hk => ?_, fun k hk x hx => ?_, fun n => ?_⟩
    · have hne : k ≠ (.target, stagingDir) := by rintro rfl; exact ht rfl
      simpa [hne] using hQ.links k ht hX
    · have hxn : x ≠ s.next := ne_of_lt (hx.trans_le h.grown)
      simpa [Files.node_add, hxn] using hQ.nodes x hx
    · refine ⟨(hQ.keys k hk).1, (hQ.keys k hk).2.1, fun _ => ⟨s.next, by simp, ?_⟩⟩
      simp [Disk.kind, Files.node_add, Inode.new]
    · have hkt : k ≠ (.target, stagingDir) := fun he =>
        (hQ.keys _ hk).1.ne_target (congrArg Prod.fst he)
      simp only [Disk.on_toFiles, Files.lookup_add, if_neg hkt] at hx
      simpa [Files.node_add, hlive x (Files.live_of_lookup hx)] using hQ.own k hk x hx
    · refine (hQ.target n).imp_right fun ⟨h0, x, hx, hw⟩ => ⟨h0, x, hx, ?_⟩
      have hxn : x ≠ s.next := ne_of_lt hw.bound
      have hnode : (s.on (s.add (.target, stagingDir) (.new id .directory [] false))).node x =
          s.node x := by simp [Files.node_add, hxn]
      exact ⟨hw.1, hw.2.trans (Nat.lt_succ_self _), hnode ▸ hw.3, hnode ▸ hw.4, hnode ▸ hw.5,
        hnode ▸ hw.6⟩

/-- An inode gets a free name in the target. With no other process about it is a whole file. -/
theorem link (h : Base w X w.entries s) (hlive : s.Live o) (hnone : s.lookup (.target, dest) = none)
    (hdest : dest ≠ stagingDir) (hwhole : ¬ w.rival → w.IsWhole o s) :
    Base w X (Function.update w.entries dest (some o)) (s.on (s.link (.target, dest) o)) := by
  have hpart : ((Dir.target, stagingDir) : Key) ≠ (.target, dest) :=
    fun he => hdest (Prod.mk.inj he).2.symm
  refine ⟨h.wf.link hlive, h.grown, h.foreign, h.sized, fun n hn => ?_, ?_, fun hq => ?_⟩
  · by_cases hd : n = dest
    · simp [hd]
    · simpa [hd] using h.target n hn
  · simpa [hpart] using h.copies
  · have hQ := h.quiet hq
    refine ⟨fun k ht hX => ?_, hQ.nodes, fun k hk => ⟨(hQ.keys k hk).1, (hQ.keys k hk).2.1,
      fun hc => ?_⟩, fun k hk x hx => ?_, fun n => ?_⟩
    · have hne : k ≠ (.target, dest) := by rintro rfl; exact ht rfl
      simpa [hne] using hQ.links k ht hX
    · obtain ⟨x, hx, hd⟩ := (hQ.keys k hk).2.2 hc
      exact ⟨x, by simpa [hpart] using hx, hd⟩
    · have hkt : k ≠ (.target, dest) := fun he => (hQ.keys _ hk).1.ne_target (congrArg Prod.fst he)
      simp only [Disk.on_toFiles, Files.lookup_link, if_neg hkt] at hx
      exact hQ.own k hk x hx
    · by_cases hd : n = dest
      · have h0 : w.entries dest = none := by rw [← h.target dest hdest, hnone]
        have hw := hwhole hq
        exact Or.inr ⟨hd ▸ h0, o, by simp [hd], ⟨hw.1, hw.2, hw.3, hw.4, hw.5, hw.6⟩⟩
      · exact Or.inl (by simp [hd])

theorem unlinkTarget (h : Base w X (Function.update w.entries dest (some o)) s)
    (hdest : dest ≠ stagingDir) (h0 : w.entries dest = none) :
    Base w X w.entries (s.on (s.unlink (.target, dest))) := by
  have hpart : ((Dir.target, stagingDir) : Key) ≠ (.target, dest) :=
    fun he => hdest (Prod.mk.inj he).2.symm
  refine ⟨h.wf.unlink, h.grown, h.foreign, h.sized, fun n hn => ?_, ?_, fun hq => ?_⟩
  · by_cases hd : n = dest
    · simp [hd, h0]
    · simpa [hd] using h.target n hn
  · simpa [hpart] using h.copies
  · have hQ := h.quiet hq
    refine ⟨fun k ht hX => ?_, hQ.nodes, fun k hk => ⟨(hQ.keys k hk).1, (hQ.keys k hk).2.1,
      fun hc => ?_⟩, fun k hk x hx => ?_, fun n => Or.inl rfl⟩
    · have hne : k ≠ (.target, dest) := by rintro rfl; exact ht rfl
      simpa [hne] using hQ.links k ht hX
    · obtain ⟨x, hx, hd⟩ := (hQ.keys k hk).2.2 hc
      exact ⟨x, by simpa [hpart] using hx, hd⟩
    · simp only [Disk.on_toFiles, Files.lookup_unlink] at hx
      split_ifs at hx
      exact hQ.own k hk x hx

end Base

end Sukkula.Inbox
