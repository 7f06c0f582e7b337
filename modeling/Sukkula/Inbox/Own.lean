import Sukkula.Inbox.Calls

/-! # The inodes of one incoming file

Assertions about the staging file and about the copy: that they are this file's,
what they contain, and that no other live inode has the copy's number. All of
them survive the drift, and each says which changes of the disk it survives.
-/

namespace Sukkula.Inbox

open Str Machine

variable {w : Setting} {s s' : Disk} {X K : List Key} {T : Str → Option ℕ} {k k' : Key}
  {o x : ℕ} {id : FileId} {b p : Bytes} {i : Inode} {dest : Str}

/-- The inode was made by this run, under this name and with this number. -/
structure Owns (w : Setting) (o : ℕ) (k : Key) (id : FileId) (s : Disk) : Prop where
  start_le : w.start.next ≤ o
  bound : o < s.next
  ours : (s.node o).ours
  regular : (s.node o).kind = .regular
  id_eq : (s.node o).id = id
  entry : ¬ w.rival → s.lookup k = some o

/-- All that was handed over for the inode has reached it. -/
structure Settled (o : ℕ) (b : Bytes) (s : Disk) : Prop where
  bound : o < s.next
  ours : (s.node o).ours
  pending : (s.node o).pending = []
  data : (s.node o).data = b

/-- `p` was handed over for the inode, and all of it is there or on its way unless some was lost. -/
structure Growing (o : ℕ) (p : Bytes) (s : Disk) : Prop where
  bound : o < s.next
  ours : (s.node o).ours
  size : (s.node o).data.length + (s.node o).pending.length ≤ p.length
  data : (s.node o).lost = false → (s.node o).data ++ (s.node o).pending = p

/-- No other live inode has the number of this one. -/
structure Alone (o : ℕ) (s : Disk) : Prop where
  bound : o < s.next
  ours : (s.node o).ours
  kept : (s.node o).removed = false
  alone : ∀ x, s.Live x → (s.node x).id = (s.node o).id → x = o

structure NonDir (k : Key) (s : Disk) : Prop where
  wf : s.Wf
  kind : ∀ o, s.lookup k = some o → s.kind o ≠ .directory

/-- With no other process about, the entry is gone or has this number. -/
def KeyId (w : Setting) (k : Key) (id : FileId) (s : Disk) : Prop :=
  ¬ w.rival → ∀ o, s.lookup k = some o → o < s.next ∧ (s.node o).id = id

namespace Owns

theorem congr (h : Owns w o k id s) (hnext : s.next ≤ s'.next)
    (hid : (s'.node o).id = (s.node o).id) (hkind : (s'.node o).kind = (s.node o).kind)
    (hours : (s'.node o).ours = (s.node o).ours) (hk : ¬ w.rival → s'.lookup k = s.lookup k) :
    Owns w o k id s' :=
  ⟨h.start_le, h.bound.trans_le hnext, hours.trans h.ours, hkind.trans h.regular,
    hid.trans h.id_eq, fun hq => (hk hq).trans (h.entry hq)⟩

theorem steady : Steady w.rival (Owns w o k id) := by
  intro s s' h hd
  obtain ⟨h1, h2, h3, -⟩ := hd.node h.bound
  exact h.congr hd.next_le h1 h2 h3 fun hq => hd.lookup_quiet hq k

theorem touch (h : Owns w o k id s) (hid : i.id = (s.node x).id) (hkind : i.kind = (s.node x).kind)
    (hours : i.ours = (s.node x).ours) : Owns w o k id (s.on (s.touch x i)) := by
  have hn : (s.touch x i).node o = if o = x then i else s.node o := Files.node_touch
  refine h.congr le_rfl ?_ ?_ ?_ fun _ => rfl <;> rw [Disk.on_toFiles, hn] <;> split_ifs with hx <;>
    simp_all

theorem close (h : Owns w o k id s) : Owns w o k id (s.on (s.close x)) :=
  h.congr le_rfl rfl rfl rfl fun _ => rfl

theorem link (h : Owns w o k id s) (hne : k ≠ k') : Owns w o k id (s.on (s.link k' x)) :=
  h.congr le_rfl rfl rfl rfl fun _ => by simp [hne]

theorem unlink (h : Owns w o k id s) (hne : ¬ w.rival → k ≠ k') :
    Owns w o k id (s.on (s.unlink k')) :=
  h.congr le_rfl rfl rfl rfl fun hq => by simp [hne hq]

theorem remove (h : Owns w o k id s) (hne : ¬ w.rival → k ≠ k') : Owns w o k id (s.remove k' x) :=
  (h.touch (i := { s.node x with removed := true }) rfl rfl rfl).unlink hne

theorem add (h : Owns w o k id s) (hne : ¬ w.rival → k ≠ k') :
    Owns w o k id (s.on (s.add k' i)) := by
  have hn : (s.on (s.add k' i)).node o = s.node o := by
    simp [Files.node_add, ne_of_lt h.bound]
  exact h.congr (Nat.le_succ _) (by rw [hn]) (by rw [hn]) (by rw [hn]) fun hq => by simp [hne hq]

theorem keyId (h : Owns w o k id s) : KeyId w k id s := by
  intro hq x hx
  obtain rfl : o = x := by simpa [h.entry hq] using hx
  exact ⟨h.bound, h.id_eq⟩

end Owns

namespace Settled

theorem congr (h : Settled o b s) (hnext : s.next ≤ s'.next)
    (hours : (s'.node o).ours = (s.node o).ours) (hdata : (s'.node o).data = (s.node o).data)
    (hpend : (s'.node o).pending = (s.node o).pending) : Settled o b s' :=
  ⟨h.bound.trans_le hnext, hours.trans h.ours, hpend.trans h.pending, hdata.trans h.data⟩

theorem steady {rival : Prop} : Steady rival (Settled o b) := by
  intro s s' h hd
  have he := hd.node_eq h.bound h.ours h.pending
  exact h.congr hd.next_le (by rw [he]) (by rw [he]) (by rw [he])

/-- A change of another inode, or of no more than marks and positions. -/
theorem touch (h : Settled o b s) (hx : o = x → i.ours = (s.node x).ours ∧
    i.data = (s.node x).data ∧ i.pending = (s.node x).pending) :
    Settled o b (s.on (s.touch x i)) := by
  have hn : (s.touch x i).node o = if o = x then i else s.node o := Files.node_touch
  refine h.congr le_rfl ?_ ?_ ?_ <;> rw [Disk.on_toFiles, hn] <;> split_ifs with he <;> simp_all

theorem close (h : Settled o b s) : Settled o b (s.on (s.close x)) := h.congr le_rfl rfl rfl rfl

theorem link (h : Settled o b s) : Settled o b (s.on (s.link k x)) := h.congr le_rfl rfl rfl rfl

theorem unlink (h : Settled o b s) : Settled o b (s.on (s.unlink k)) := h.congr le_rfl rfl rfl rfl

theorem remove (h : Settled o b s) : Settled o b (s.remove k x) :=
  (h.touch (x := x) (i := { s.node x with removed := true }) fun _ => ⟨rfl, rfl, rfl⟩).unlink

theorem add (h : Settled o b s) : Settled o b (s.on (s.add k i)) := by
  have hn : (s.on (s.add k i)).node o = s.node o := by
    simp [Files.node_add, ne_of_lt h.bound]
  exact h.congr (Nat.le_succ _) (by rw [hn]) (by rw [hn]) (by rw [hn])

end Settled

namespace Growing

theorem steady {rival : Prop} : Steady rival (Growing o p) := by
  intro s s' h hd
  obtain ⟨-, -, hours, -⟩ := hd.node h.bound
  have ho := hours.trans h.ours
  refine ⟨h.bound.trans_le hd.next_le, ho, (hd.size_le ho).2.trans h.size, ?_⟩
  cases hd with
  | land x n =>
    simp only [Disk.land, Disk.on_toFiles, Files.node_touch]
    split_ifs with hx
    · subst hx
      simpa using h.data
    · exact h.data
  | lose x =>
    simp only [Disk.on_toFiles, Files.node_touch]
    split_ifs with hx
    · simp
    · exact h.data
  | alter x _ _ hx =>
    have hne : o ≠ x := by rintro rfl; simp [h.ours] at hx
    simpa [Files.node_touch, hne] using h.data
  | unlink | link => exact h.data
  | create => simpa [Files.node_add, ne_of_lt h.bound] using h.data

theorem of_new (h : (s.node o) = .new id .regular [] true) (hb : o < s.next) : Growing o [] s :=
  ⟨hb, by rw [h]; rfl, by simp [h, Inode.new], by simp [h, Inode.new]⟩

theorem accept (h : Growing o p s) : Growing o (p ++ b) (s.accept o b) := by
  refine ⟨h.bound, ?_, ?_, ?_⟩ <;>
    simp only [Disk.accept, Disk.on_toFiles, Files.node_touch, if_pos]
  · exact h.ours
  · have := h.size
    simp only [List.length_append]
    omega
  · intro hl
    rw [← List.append_assoc, h.data hl]

theorem flush (h : Growing o p s) (hl : (s.node o).lost = false) :
    Settled o p (s.land o (s.node o).pending.length) := by
  refine ⟨h.bound, ?_, ?_, ?_⟩ <;> simp only [Disk.land, Disk.on_toFiles, Files.node_touch, if_pos]
  · exact h.ours
  · simp
  · simpa using h.data hl

theorem congr (h : Growing o p s) (hnext : s.next ≤ s'.next) (hn : s'.node o = s.node o) :
    Growing o p s' :=
  ⟨h.bound.trans_le hnext, hn ▸ h.ours, hn ▸ h.size, hn ▸ h.data⟩

theorem touch_other (h : Growing o p s) (hne : o ≠ x) : Growing o p (s.on (s.touch x i)) :=
  h.congr le_rfl (by simp [Files.node_touch, hne])

end Growing

namespace Alone

theorem congr (h : Alone o s) (hnext : s.next ≤ s'.next)
    (hnode : ∀ x, x < s.next → (s'.node x).id = (s.node x).id) (hw : s.Wf)
    (hours : (s'.node o).ours = (s.node o).ours)
    (hrem : (s'.node o).removed = (s.node o).removed)
    (hlive : ∀ x, s'.Live x → s.Live x) : Alone o s' := by
  refine ⟨h.bound.trans_le hnext, hours.trans h.ours, hrem.trans h.kept, fun x hx he => ?_⟩
  have hx' := hlive x hx
  rw [hnode x (hw.bound x hx'), hnode o h.bound] at he
  exact h.alone x hx' he

theorem of_live (hw : s.Wf) (hl : s.Live o) (ho : (s.node o).ours)
    (hr : (s.node o).removed = false) : Alone o s :=
  ⟨hw.bound o hl, ho, hr, fun x hx he => hw.distinct x o hx hl he⟩

theorem steady {rival : Prop} : Steady rival fun s => s.Wf ∧ Alone o s := by
  rintro s s' ⟨hw, h⟩ hd
  refine ⟨hd.wf hw, ?_⟩
  have hnode := fun x hx => (hd.node (o := x) hx).1
  obtain ⟨-, -, hours, hrem, -⟩ := hd.node h.bound
  cases hd with
  | land x n hp =>
    exact h.congr le_rfl hnode hw hours hrem fun y => Files.live_touch fun _ => Or.inr (Or.inr hp)
  | lose x hp =>
    exact h.congr le_rfl hnode hw hours hrem fun y => Files.live_touch fun he => absurd rfl he
  | alter x d =>
    exact h.congr le_rfl hnode hw hours hrem fun y => Files.live_touch fun hp => Or.inr (Or.inr hp)
  | unlink k => exact h.congr le_rfl hnode hw hours hrem fun y => Files.live_unlink
  | link k k' x _ _ hk =>
    exact h.congr le_rfl hnode hw hours hrem fun y => Files.live_link (Files.live_of_lookup hk)
  | create k id kind data _ _ hid _ hfresh =>
    refine ⟨h.bound.trans (Nat.lt_succ_self _), hours.trans h.ours, hrem.trans h.kept,
      fun x hx he => ?_⟩
    simp only [Disk.on_toFiles, Files.node_add, if_neg (ne_of_lt h.bound)] at he
    rcases Files.live_add hx with rfl | hx
    · exact absurd he (by simpa [Inode.new] using hfresh o h.bound h.ours h.kept)
    · rw [if_neg (ne_of_lt (hw.bound x hx))] at he
      exact h.alone x hx he

end Alone

theorem NonDir.steady {rival : Prop} : Steady rival (NonDir k) := by
  intro s s' h hd
  refine ⟨hd.wf h.wf, fun x hx => ?_⟩
  have hkeep : s.lookup k = some x → s'.kind x ≠ .directory := fun hx he =>
    h.kind x hx ((hd.node (h.wf.bound x (Files.live_of_lookup hx))).2.1.symm.trans he)
  cases hd with
  | land | lose | alter => exact hkeep hx
  | unlink k' =>
    simp only [Disk.on_toFiles, Files.lookup_unlink] at hx
    split_ifs at hx
    exact hkeep hx
  | link k₁ k₂ y _ _ hy hd' =>
    simp only [Disk.on_toFiles, Files.lookup_link] at hx
    split_ifs at hx
    · exact Option.some.inj hx ▸ hd'
    · exact hkeep hx
  | create k' id kind data _ _ _ hkind =>
    simp only [Disk.on_toFiles, Files.lookup_add] at hx
    split_ifs at hx
    · obtain rfl := Option.some.inj hx
      simpa [Disk.kind, Files.node_add, Inode.new] using hkind
    · exact hkeep hx

theorem NonDir.touch (h : NonDir k s) (hid : i.id = (s.node x).id)
    (hkind : i.kind = (s.node x).kind) (hlive : i.pending ≠ [] → s.Live x) :
    NonDir k (s.on (s.touch x i)) := by
  refine ⟨h.wf.touch hid hlive, fun y hy => ?_⟩
  have hn : (s.touch x i).node y = if y = x then i else s.node y := Files.node_touch
  have hy' := h.kind y hy
  simp only [Disk.kind, Disk.on_toFiles, hn]
  split_ifs with he
  · rw [hkind, ← he]
    exact hy'
  · exact hy'

theorem NonDir.close (h : NonDir k s) : NonDir k (s.on (s.close x)) := ⟨h.wf.close, h.kind⟩

theorem KeyId.steady : Steady w.rival (KeyId w k id) := by
  intro s s' h hd hq x hx
  rw [hd.lookup_quiet hq] at hx
  obtain ⟨hb, he⟩ := h hq x hx
  exact ⟨hb.trans_le hd.next_le, (hd.node hb).1.trans he⟩

theorem steady_opened {rival : Prop} : Steady rival fun s => o ∈ s.opened :=
  fun _ _ h hd => by simpa only [hd.opened_eq] using h

theorem steady_drewTaken {rival : Prop} : Steady rival fun s => s.drewTaken = true :=
  fun _ _ h hd => hd.flags.2.1.trans h

namespace Books

theorem steady : Steady w.rival (Books w K T) := by
  rintro s s' ⟨Z, h, hZ⟩ hd
  exact ⟨Z, Base.steady s s' h hd, fun hf => hZ (hd.flags.1.symm.trans hf)⟩

/-- A change that is good for the ledger, with no failing `stat`. -/
theorem map {K' : List Key} {T' : Str → Option ℕ} (h : Books w K T s)
    (hb : ∀ Z, Base w (Z ++ K) T s → Base w (Z ++ K') T' s')
    (hf : s'.statFailed = s.statFailed) : Books w K' T' s' := by
  obtain ⟨Z, hbase, hZ⟩ := h
  exact ⟨Z, hb Z hbase, fun h => hZ (hf ▸ h)⟩

theorem abandon (h : Books w (k :: K) T s) (hf : s.statFailed = true) : Books w K T s := by
  obtain ⟨Z, hbase, -⟩ := h
  exact ⟨Z ++ [k], by simpa using hbase, fun h => by simp [hf] at h⟩

theorem raise (h : Books w K T s) : Books w K T { s with statFailed := true } := by
  obtain ⟨Z, hbase, -⟩ := h
  exact ⟨Z, hbase.congr rfl rfl, nofun⟩

theorem wf (h : Books w K T s) : s.Wf := h.elim fun _ hb => hb.1.wf

theorem perm {K' : List Key} (h : Books w K T s) (hK : ∀ k, k ∈ K ↔ k ∈ K') : Books w K' T s :=
  h.map (fun Z h => h.keys_congr fun k => by simp [hK k]) rfl

/-- An entry that is gone, or that a failing `stat` hid, is off the list. -/
theorem forget (h : Books w (k :: K) T s)
    (hk : ¬ w.rival → s.lookup k = none ∨ s.statFailed = true) : Books w K T s := by
  by_cases hf : s.statFailed = true
  · exact h.abandon hf
  · have hk' : ¬ w.rival → s.lookup k = none := fun hq => (hk hq).resolve_right hf
    exact h.map (fun Z h => (h.keys_congr (Y := k :: (Z ++ K)) fun k' => by
      simp only [List.mem_append, List.mem_cons]; tauto).forget hk') rfl

theorem mark (h : Books w K T s) (ho : ¬ w.rival → w.start.next ≤ o) :
    Books w K T (s.on (s.touch o { s.node o with removed := true })) := by
  refine h.map (fun Z h => h.touch rfl rfl rfl ?_ (fun hp => Or.inr (Or.inr hp))
    (fun hours => h.sized o hours) fun _ _ => ⟨rfl, rfl⟩) rfl
  by_cases hr : w.rival
  · exact Or.inr hr
  · exact Or.inl (ho hr)

theorem own (h : Books w K T s) (hq : ¬ w.rival) (hk : k ∈ K) (ho : s.lookup k = some o) :
    w.start.next ≤ o ∧ (s.node o).ours ∧ (s.node o).kind = .regular := by
  obtain ⟨Z, hb, -⟩ := h
  exact (hb.quiet hq).own k (by simp [hk]) o ho

theorem unlinked {l : Choice} {a : Except Errno Unit} (h : Books w (k :: K) T s)
    (hk : k.1 ≠ .target) (ho : os (.unlink k) s l = some (a, s')) : Books w K T s' := by
  rcases os_unlink ho with ⟨x, hx, -, rfl⟩ | ⟨hdir, rfl⟩
  · have hm : Books w (k :: K) T (s.remove k x) :=
      (h.mark fun hq => (h.own hq (by simp) hx).1).map
        (fun Z h => h.unlink hk fun _ => by simp) rfl
    exact hm.forget fun _ => Or.inl (by simp [Disk.remove])
  · refine h.forget fun hq => Or.inl ?_
    cases hx : s'.lookup k with
    | none => rfl
    | some x =>
      have hreg := (h.own hq (by simp) hx).2.2
      have hd := hdir x hx
      rw [Disk.kind, hreg] at hd
      cases hd

end Books

end Sukkula.Inbox
