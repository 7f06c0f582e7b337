import Sukkula.Store.Write

/-! # What the next start removes

The sweep of `Store::open` takes the regular files with a temporary name and
nothing else, whatever fails; where nothing fails, and the directory is not too
full, it takes them all. So what a killed write leaves beside its file is gone
with the next start, and no file of the store ever is.
-/

namespace Sukkula.Store

open Inbox (DirEntry)
open Machine Transition

variable {d d₀ d' : Disk} {e : DirEntry} {n : Node} {l : Choice}
  {G : Disk → Label Choice Empty → Prop} {I : Disk → Prop}

def Swept (d : Disk) (k : Str) : Prop := isTemporary k ∧ (d.lookup k).map Node.kind = some .regular

instance (d : Disk) (k : Str) : Decidable (Swept d k) := by unfold Swept; infer_instance

def Trimmed (d₀ d : Disk) : Prop := ∀ k, d.lookup k = d₀.lookup k ∨ (Swept d₀ k ∧ d.lookup k = none)

def NoFailure (G : Disk → Label Choice Empty → Prop) : Prop := ∀ d t, ¬ G d (.answer (.fails t))

theorem Trimmed.refl (d : Disk) : Trimmed d d := fun _ => Or.inl rfl

theorem Trimmed.remove (h : Trimmed d₀ d) {k : Str} (hk : Swept d k) : Trimmed d₀ (d.remove k) := by
  intro k'
  rw [Disk.lookup_remove]
  split_ifs with he
  · subst he
    rcases h k' with hl | ⟨hs, -⟩
    · exact Or.inr ⟨⟨hk.1, hl ▸ hk.2⟩, rfl⟩
    · exact Or.inr ⟨hs, rfl⟩
  · exact h k'

theorem os_stat {k : Str} {a : Except String Kind} (h : os (.stat k) d l = some (a, d')) :
    d' = d ∧ ((∃ n, d.lookup k = some n ∧ a = .ok n.kind) ∨
      (∃ t, l = .fails t ∧ a = .error t)) := by
  cases l with
  | done =>
    obtain ⟨n, hn, he⟩ := Option.map_eq_some_iff.mp h
    cases he
    exact ⟨rfl, Or.inl ⟨n, hn, rfl⟩⟩
  | fails t =>
    cases h
    exact ⟨rfl, Or.inr ⟨t, rfl, rfl⟩⟩
  | draws | takes | lists => cases h

theorem os_list {a : Except String (List DirEntry)} (h : os .list d l = some (a, d')) :
    d' = d ∧ ((∃ es, Lists d.folder es ∧ a = .ok es) ∨ (∃ t, l = .fails t ∧ a = .error t)) := by
  cases l with
  | lists es =>
    obtain ⟨hl, he⟩ := Option.ite_none_right_eq_some.mp h
    cases he
    exact ⟨rfl, Or.inl ⟨es, hl, rfl⟩⟩
  | fails t =>
    cases h
    exact ⟨rfl, Or.inr ⟨t, rfl, rfl⟩⟩
  | done | draws | takes => cases h

theorem isRegular_spec (hI : I d) (hn : d.lookup e.name = some n)
    (ht : ∀ k ∈ e.fileType, n.kind = k) :
    machine.Holds G I (fun (b : Bool) d' => d' = d ∧ (b → n.kind = .regular) ∧
      (NoFailure G → n.kind = .regular → b)) (isRegular e) d := by
  unfold isRegular
  split
  · rename_i kind hk
    obtain rfl := ht kind hk
    exact .ret_alone hI ⟨rfl, by simp, by simp⟩
  · refine .call_alone hI fun l a d' hg ho => ?_
    obtain ⟨rfl, ⟨n', hn', rfl⟩ | ⟨t, rfl, rfl⟩⟩ := os_stat ho
    · obtain rfl := Option.some.inj (hn.symm.trans hn')
      exact .ret_alone hI ⟨rfl, by simp, by simp⟩
    · exact .ret_alone hI ⟨rfl, nofun, fun hG => absurd hg (hG _ _)⟩

theorem sweepEntry_spec (hI : I d) (hI' : Swept d e.name → I (d.remove e.name))
    (hn : isTemporary e.name → ∃ n, d.lookup e.name = some n ∧ ∀ k ∈ e.fileType, n.kind = k) :
    machine.Holds G I (fun _ d' => (d' = d ∨ (Swept d e.name ∧ d' = d.remove e.name)) ∧
      (NoFailure G → Swept d e.name → d' = d.remove e.name)) (sweepEntry e) d := by
  unfold sweepEntry
  split_ifs with htmp
  swap
  · exact .ret_alone hI ⟨Or.inl rfl, fun _ h => absurd h.1 htmp⟩
  obtain ⟨n, hn, ht⟩ := hn htmp
  refine (isRegular_spec hI hn ht).bind ?_
  rintro b d₁ ⟨rfl, hreg, hall⟩
  split_ifs with hb
  · have hs : Swept d₁ e.name := ⟨htmp, by rw [hn, ← hreg hb]; rfl⟩
    refine .call_alone hI fun l a d' hg ho => ?_
    rcases os_unlink ho with ⟨-, -, -, rfl⟩ | ⟨⟨t, rfl⟩, rfl⟩
    · exact .ret_alone (hI' hs) ⟨Or.inr ⟨hs, rfl⟩, fun _ _ => rfl⟩
    · exact .ret_alone hI ⟨Or.inl rfl, fun hG => absurd hg (hG _ _)⟩
  · refine .ret_alone hI ⟨Or.inl rfl, fun hG hs => absurd (hall hG ?_) hb⟩
    simpa [hn] using hs.2

def temporaries (es : List DirEntry) : List Str := (es.map DirEntry.name).filter isTemporary

theorem mem_temporaries {es : List DirEntry} {k : Str} :
    k ∈ temporaries es ↔ (∃ e ∈ es, e.name = k) ∧ isTemporary k := by
  simp [temporaries]

theorem mem_temporaries_cons {es : List DirEntry} {k : Str} :
    k ∈ temporaries (e :: es) ↔ (k = e.name ∧ isTemporary k) ∨ k ∈ temporaries es := by
  constructor
  · intro h
    obtain ⟨⟨e', he, rfl⟩, htmp⟩ := mem_temporaries.mp h
    rcases List.mem_cons.mp he with rfl | he
    · exact Or.inl ⟨rfl, htmp⟩
    · exact Or.inr (mem_temporaries.mpr ⟨⟨e', he, rfl⟩, htmp⟩)
  · rintro (⟨rfl, htmp⟩ | h)
    · exact mem_temporaries.mpr ⟨⟨e, List.mem_cons_self, rfl⟩, htmp⟩
    · obtain ⟨⟨e', he, rfl⟩, htmp⟩ := mem_temporaries.mp h
      exact mem_temporaries.mpr ⟨⟨e', List.mem_cons_of_mem _ he, rfl⟩, htmp⟩

theorem not_mem_temporaries {es : List DirEntry} (hn : (temporaries (e :: es)).Nodup)
    (he : isTemporary e.name) : e.name ∉ temporaries es := by
  rw [temporaries, List.map_cons, List.filter_cons_of_pos he, List.nodup_cons] at hn
  exact hn.1

def Shows (d : Disk) (es : List DirEntry) : Prop :=
  ∀ e ∈ es, isTemporary e.name → ∃ n, d.lookup e.name = some n ∧ ∀ k ∈ e.fileType, n.kind = k

theorem Shows.remove {es : List DirEntry} (h : Shows d es) {k : Str} (hk : k ∉ temporaries es) :
    Shows (d.remove k) es := by
  intro e he htmp
  have hne : e.name ≠ k := fun h => hk (mem_temporaries.mpr ⟨⟨e, he, h⟩, h ▸ htmp⟩)
  rw [Disk.lookup_remove, if_neg hne]
  exact h e he htmp

theorem swept_remove {k k' : Str} (hne : k' ≠ k) : Swept (d.remove k) k' ↔ Swept d k' := by
  rw [Swept, Swept, Disk.lookup_remove, if_neg hne]

theorem sweepEntries_spec {es : List DirEntry} (hT : Trimmed d₀ d) (hes : Shows d es)
    (hn : (temporaries es).Nodup) :
    machine.Holds G (Trimmed d₀) (fun _ d' => Trimmed d₀ d' ∧ (NoFailure G → ∀ k, d'.lookup k =
      if k ∈ temporaries es ∧ Swept d k then none else d.lookup k)) (sweepEntries es) d := by
  induction es generalizing d with
  | nil => exact .ret_alone hT ⟨hT, fun _ k => by simp [temporaries]⟩
  | cons e es ih =>
    obtain ⟨he, hes⟩ := List.forall_mem_cons.mp hes
    have hsub : (temporaries es).Nodup :=
      hn.sublist ((List.sublist_cons_self e.name (es.map DirEntry.name)).filter _)
    refine (sweepEntry_spec hT (fun hs => hT.remove hs) he).bind ?_
    rintro ⟨⟩ d₁ ⟨hd, hall⟩
    have h₁ : Trimmed d₀ d₁ ∧ Shows d₁ es := by
      rcases hd with rfl | ⟨hs, rfl⟩
      · exact ⟨hT, hes⟩
      · exact ⟨hT.remove hs, Shows.remove hes (not_mem_temporaries hn hs.1)⟩
    refine (ih h₁.1 h₁.2 hsub).mono ?_
    rintro ⟨⟩ d' ⟨hT', hall'⟩
    refine ⟨hT', fun hG k => ?_⟩
    rw [hall' hG k]
    simp only [mem_temporaries_cons]
    by_cases hs : Swept d e.name
    · obtain rfl := hall hG hs
      by_cases hk : k = e.name
      · subst hk
        simp [not_mem_temporaries hn hs.1, hs, hs.1]
      · simp [swept_remove hk, hk]
    · obtain rfl : d₁ = d := hd.elim id fun h => absurd h.1 hs
      by_cases hk : k = e.name
      · subst hk
        simp [hs]
      · simp [hk]

theorem Shows.of_lists {es : List DirEntry} (h : Lists d.folder es) : Shows d es := by
  intro e he htmp
  have hm : e.name ∈ ['.'] :: ['.', '.'] :: d.folder.entries.map Prod.fst :=
    h.1.subset (List.mem_map_of_mem he)
  have hk : d.lookup e.name ≠ none := by
    apply Assoc.Table.mem_keys_iff.mp
    rcases List.mem_cons.mp hm with hd | hm
    · exact absurd (hd ▸ htmp) (by decide)
    · rcases List.mem_cons.mp hm with hd | hm
      · exact absurd (hd ▸ htmp) (by decide)
      · exact hm
  obtain ⟨n, hn⟩ := Option.ne_none_iff_exists'.mp hk
  exact ⟨n, hn, fun k hk => h.2 e he k hk n hn⟩

theorem nodup_temporaries {es : List DirEntry} (h : Lists d.folder es) :
    (temporaries es).Nodup := by
  have hp := (h.1.filter isTemporary).nodup_iff
  rw [List.filter_cons_of_neg (by decide), List.filter_cons_of_neg (by decide)] at hp
  exact hp.mpr (d.folder.nodup.filter _)

theorem shows_take {es : List DirEntry} (h : Lists d.folder es) (i : ℕ) :
    Shows d (es.take i) ∧ (temporaries (es.take i)).Nodup := by
  constructor
  · exact fun e he => Shows.of_lists h e (List.mem_of_mem_take he)
  · exact (nodup_temporaries h).sublist (((List.take_sublist ..).map _).filter _)

theorem mem_temporaries_of_swept {es : List DirEntry} (h : Lists d.folder es) {k : Str}
    (hk : Swept d k) : k ∈ temporaries es := by
  refine List.mem_filter.mpr ⟨h.1.symm.subset ?_, hk.1⟩
  apply List.mem_cons_of_mem
  apply List.mem_cons_of_mem
  apply Assoc.Table.mem_keys_iff.mpr
  intro hn
  have := hk.2
  simp [Disk.lookup, hn] at this

/-- Whatever fails, nothing but regular files with a temporary name is gone; where nothing fails,
they all are. -/
theorem openStore_spec (d : Disk) :
    machine.Holds G (Trimmed d) (fun r d' => Trimmed d d' ∧
      (NoFailure G → r = .ok () ∧ (d.folder.entries.length + 2 ≤ maxTmpSweep →
        ∀ k, d'.lookup k = if Swept d k then none else d.lookup k))) openStore.run d := by
  have hd := Trimmed.refl d
  refine .call_alone hd fun l a d' hg ho => ?_
  obtain ⟨rfl, rfl | ⟨t, rfl, rfl⟩⟩ := os_openDir ho
  swap
  · exact .ret_alone hd ⟨hd, fun hG => absurd hg (hG _ _)⟩
  refine .call_alone hd fun l a d' hg ho => ?_
  obtain ⟨rfl, ⟨es, hes, rfl⟩ | ⟨t, rfl, rfl⟩⟩ := os_list ho
  swap
  · exact .ret_alone hd ⟨hd, fun hG => absurd hg (hG _ _)⟩
  obtain ⟨hshows, hnodup⟩ := shows_take hes maxTmpSweep
  refine (sweepEntries_spec hd hshows hnodup).bind_of
    (f := fun u => Prog.ret (Except.ok u : Except StoreError Unit)) ?_
  intro u d₁ h
  refine .ret_alone h.inv ⟨h.inv, fun hG => ⟨rfl, fun hlen k => ?_⟩⟩
  have hall : es.length ≤ maxTmpSweep := by
    have := hes.1.length_eq
    simp only [List.length_map, List.length_cons] at this
    omega
  rw [h.result.2 hG k, List.take_of_length_le hall]
  by_cases hs : Swept d' k
  · rw [if_pos ⟨mem_temporaries_of_swept hes hs, hs⟩, if_pos hs]
  · rw [if_neg fun h => hs h.2, if_neg hs]

section Smooth

def Smooth (l : Label Choice Empty) : Prop := ∀ t, l ≠ .answer (.fails t)

theorem isRegular_can (hn : d.lookup e.name = some n) (ht : ∀ k ∈ e.fileType, n.kind = k) :
    machine.Can Smooth (fun (b : Bool) d' => d' = d ∧ (b → n.kind = .regular)) (isRegular e) d := by
  unfold isRegular
  split
  · rename_i kind hk
    obtain rfl := ht kind hk
    exact .ret ⟨rfl, by simp⟩
  · refine .call (l := .done) (a := Except.ok n.kind) (t := d) nofun ?_ (.ret ⟨rfl, by simp⟩)
    exact Option.map_eq_some_iff.mpr ⟨n, hn, rfl⟩

theorem sweepEntry_can
    (hn : isTemporary e.name → ∃ n, d.lookup e.name = some n ∧ ∀ k ∈ e.fileType, n.kind = k) :
    machine.Can Smooth (fun _ d' => d' = d ∨ (Swept d e.name ∧ d' = d.remove e.name)) (sweepEntry e)
      d := by
  unfold sweepEntry
  split_ifs with htmp
  swap
  · exact .ret (Or.inl rfl)
  obtain ⟨n, hn, ht⟩ := hn htmp
  refine (isRegular_can hn ht).bind ?_
  rintro b d₁ ⟨rfl, hreg⟩
  split_ifs with hb
  · have hs : Swept d₁ e.name := ⟨htmp, by rw [hn, ← hreg hb]; rfl⟩
    refine .call (l := .done) (a := Except.ok ()) (t := d₁.remove e.name) nofun ?_
      (.ret (Or.inr ⟨hs, rfl⟩))
    have hu : Os.unlink e.name d₁ = some (d₁.remove e.name) := by
      simp [Os.unlink, hn, hreg hb]
    exact Option.map_eq_some_iff.mpr ⟨_, hu, rfl⟩
  · exact .ret (Or.inl rfl)

theorem sweepEntries_can {es : List DirEntry} (hes : Shows d es) (hn : (temporaries es).Nodup) :
    machine.Can Smooth (fun _ _ => True) (sweepEntries es) d := by
  induction es generalizing d with
  | nil => exact .ret trivial
  | cons e es ih =>
    obtain ⟨he, hes⟩ := List.forall_mem_cons.mp hes
    have hsub : (temporaries es).Nodup :=
      hn.sublist ((List.sublist_cons_self e.name (es.map DirEntry.name)).filter _)
    refine (sweepEntry_can he).bind ?_
    rintro ⟨⟩ d₁ (rfl | ⟨hs, rfl⟩)
    · exact ih hes hsub
    · exact ih (Shows.remove hes (not_mem_temporaries hn hs.1)) hsub

def untyped (f : Folder) : List DirEntry :=
  (['.'] :: ['.', '.'] :: f.entries.map Prod.fst).map fun k => ⟨k, none⟩

theorem lists_untyped (f : Folder) : Lists f (untyped f) := by
  constructor
  · rw [untyped, List.map_map]
    exact .of_eq (List.map_id _)
  · intro e he k hk
    obtain ⟨k', -, rfl⟩ := List.mem_map.mp he
    cases hk

theorem openStore_can (d : Disk) : machine.Can Smooth (fun _ _ => True) openStore.run d := by
  have hes := lists_untyped d.folder
  obtain ⟨hshows, hnodup⟩ := shows_take hes maxTmpSweep
  refine .call (l := .done) (a := Except.ok ()) (t := d) nofun rfl ?_
  refine .call (l := .lists (untyped d.folder)) (a := Except.ok (untyped d.folder)) (t := d) nofun
    (if_pos hes) ?_
  exact (sweepEntries_can hshows hnodup).bind
    (f := fun u => Prog.ret (Except.ok u : Except StoreError Unit)) fun _ _ _ => .ret trivial

end Smooth

/-- `k` is a temporary name of some file of the store. -/
def Temporary (k : Str) : Prop :=
  ∃ m r, checkName m = .ok () ∧ r.length = tmpRandomBytes ∧ k = temporaryName m r

theorem swept_iff {k : Str} : Swept d k ↔ Temporary k ∧ (d.lookup k).map Node.kind =
    some .regular :=
  and_congr_left' isTemporary_iff

section Killed

variable {f : Folder} {name : Str} {bytes : Bytes} {p : Prog Ans (Except StoreError Unit)}
  {ls : List (Label Choice Empty)}

theorem PointOf.whole (hname : NameOk name) (h : PointOf f name bytes d) :
    (d.lookup name = f.lookup name ∨ d.lookup name = some ⟨.regular, bytes⟩) ∧
      ∃ r, r.length = tmpRandomBytes ∧ ∀ k, k ≠ name → d.lookup k = f.lookup k ∨
        (k = temporaryName name r ∧ (d.lookup k = none ∨ ∃ data, d.lookup k =
          some ⟨.regular, data⟩)) := by
  obtain ⟨r, hr, h⟩ := h
  have hne := name_ne_temporaryName hname r
  rcases h with h | h
  · refine ⟨Or.inl (h.others name hne), r, hr, fun k hk => ?_⟩
    by_cases hk' : k = temporaryName name r
    · subst hk'
      rcases h.temporary with ht | ht | ht
      · exact Or.inl ht
      · exact Or.inr ⟨rfl, Or.inl ht⟩
      · exact Or.inr ⟨rfl, Or.inr ht⟩
    · exact Or.inl (h.others k hk')
  · refine ⟨Or.inr h.written, r, hr, fun k hk => ?_⟩
    by_cases hk' : k = temporaryName name r
    · exact Or.inr ⟨hk', Or.inl (hk' ▸ h.temporary)⟩
    · exact Or.inl (h.others k hk hk')

theorem openStore_sweeps {d' : Disk} {r : Except StoreError Unit} (hs : ∀ l ∈ ls, Smooth l)
    (hlen : d.folder.entries.length + 2 ≤ maxTmpSweep)
    (h : exec machine.step (openStore.run, d) ls = some (.ret r, d')) :
    r = .ok () ∧ ∀ k, (Swept d k → d'.lookup k = none) ∧
    (¬ Swept d k → d'.lookup k = d.lookup k) := by
  have hall := (openStore_spec (G := fun _ => Smooth) d).of_exec (along_of_forall hs) h
  obtain ⟨hr, hk⟩ := hall.result.2 fun _ t hG => hG t rfl
  refine ⟨hr, fun k => ?_⟩
  rw [hk hlen k]
  exact ⟨fun h => if_pos h, fun h => if_neg h⟩

theorem openStore_keeps {d' : Disk} {k : Str} (hk : NameOk k)
    (h : exec machine.step (openStore.run, d) ls = some (p, d')) : d'.lookup k = d.lookup k := by
  rcases ((openStore_spec (G := fun _ _ => True) d).of_exec along_true h).inv k with h | ⟨hs, -⟩
  · exact h
  · exact absurd hk (not_nameOk_of_isTemporary hs.1)

theorem killed_write (hname : checkName name = .ok ())
    (h : exec machine.step ((write name bytes).run, { folder := f }) ls = some (p, d)) :
    ((d.lookup name = f.lookup name ∨ d.lookup name = some ⟨.regular, bytes⟩) ∧
      ∃ r, r.length = tmpRandomBytes ∧ ∀ k, k ≠ name → d.lookup k = f.lookup k ∨
        (k = temporaryName name r ∧
          (d.lookup k = none ∨ ∃ data, d.lookup k = some ⟨.regular, data⟩))) ∧
    (d.folder.entries.length < 9998 →
      (∃ ls' r d', (∀ l ∈ ls', Smooth l) ∧
        exec machine.step (openStore.run, d) ls' = some (.ret r, d')) ∧
      ∀ ls' r d', (∀ l ∈ ls', Smooth l) →
        exec machine.step (openStore.run, d) ls' = some (.ret r, d') → r = .ok () ∧
          ∀ k, (Temporary k ∧ (d.lookup k).map Node.kind = some .regular → d'.lookup k = none) ∧
            (¬ (Temporary k ∧ (d.lookup k).map Node.kind = some .regular) →
              d'.lookup k = d.lookup k)) ∧
    (∀ s, isTemporary s ↔ Temporary s) ∧ (∀ s, Temporary s → checkName s ≠ .ok ()) ∧
    ∀ ls' p' d' k, exec machine.step (openStore.run, d) ls' = some (p', d') →
      checkName k = .ok () → d'.lookup k = d.lookup k := by
  refine ⟨(pointOf_of_exec h).whole (checkName_eq_ok.mp hname), fun hlen => ⟨?_, ?_⟩,
    fun s => isTemporary_iff, ?_, ?_⟩
  · obtain ⟨ls', r, d', hs, he, -⟩ := openStore_can d
    exact ⟨ls', r, d', hs, he⟩
  · intro ls' r d' hs he
    simp only [← swept_iff]
    exact openStore_sweeps hs (by rw [maxTmpSweep]; omega) he
  · intro s hs hc
    exact not_nameOk_of_isTemporary (isTemporary_iff.mpr hs) (checkName_eq_ok.mp hc)
  · intro ls' p' d' k he hk
    exact openStore_keeps (checkName_eq_ok.mp hk) he

/-- Killed with the first of two bytes in the temporary file: the old contents are there, and the
next start removes the temporary file. -/
theorem killed_write_halfway : ∃ ls p d, exec machine.step ((write ['a'] [1, 2]).run,
      { folder := ⟨[(['a'], ⟨.regular, [7]⟩)], by decide⟩ }) ls = some (p, d) ∧
    d.lookup ['a'] = some ⟨.regular, [7]⟩ ∧
    d.lookup (temporaryName ['a'] (List.replicate 8 0)) = some ⟨.regular, [1]⟩ ∧
    ∃ ls' d', exec machine.step (openStore.run, d) ls' = some (.ret (.ok ()), d') ∧
      d'.lookup (temporaryName ['a'] (List.replicate 8 0)) = none := by
  obtain ⟨ls, p, d, hrun, hold, hnew, hlen⟩ : ∃ ls p d, exec machine.step ((write ['a'] [1, 2]).run,
      { folder := ⟨[(['a'], ⟨.regular, [7]⟩)], by decide⟩ }) ls = some (p, d) ∧
      d.lookup ['a'] = some ⟨.regular, [7]⟩ ∧
      d.lookup (temporaryName ['a'] (List.replicate 8 0)) = some ⟨.regular, [1]⟩ ∧
      d.folder.entries.length < 9998 :=
    ⟨[.answer .done, .answer (.draws (List.replicate 8 0)), .answer .done, .answer (.takes 1)],
      _, _, rfl, by decide +kernel, by decide +kernel, by decide +kernel⟩
  obtain ⟨⟨ls', r, d', hs, he⟩, hall⟩ := (killed_write (by decide +kernel) hrun).2.1 hlen
  obtain ⟨rfl, hsweep⟩ := hall ls' r d' hs he
  have htmp : Temporary (temporaryName ['a'] (List.replicate 8 0)) :=
    ⟨['a'], List.replicate 8 0, by decide +kernel, rfl, rfl⟩
  exact ⟨ls, p, d, hrun, hold, hnew, ls', d', he, (hsweep _).1 ⟨htmp, by rw [hnew]; rfl⟩⟩

end Killed

end Sukkula.Store
