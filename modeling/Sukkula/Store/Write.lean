import Sukkula.Store.Disk

/-! # What a write leaves

At every point of a write the file has its old contents or the new ones, and
beside it is at most the temporary file. A write that fails leaves the old
contents, unless all that fails is the `fsync` of the directory: the file is
replaced by then.
-/

namespace Sukkula.Store

open Machine Transition

variable {f : Folder} {name tmp : Str} {bytes data : Bytes} {d d' : Disk} {l : Choice}

section Calls

theorem os_openDir {a : Except String Unit} (h : os .openDir d l = some (a, d')) :
    d' = d ∧ (a = .ok () ∨ ∃ t, l = .fails t ∧ a = .error t) := by
  cases l with
  | done =>
    cases h
    exact ⟨rfl, Or.inl rfl⟩
  | fails t =>
    cases h
    exact ⟨rfl, Or.inr ⟨t, rfl, rfl⟩⟩
  | draws | takes | lists => cases h

theorem os_sync {a : Except String Unit} (h : os .sync d l = some (a, d')) : d' = d := by
  cases l <;> cases h <;> rfl

theorem os_random {a : Except String Bytes} (h : os .random d l = some (a, d')) :
    d' = d ∧ ∀ r, a = .ok r → r.length = tmpRandomBytes := by
  cases l with
  | draws r =>
    obtain ⟨hr, he⟩ := Option.ite_none_right_eq_some.mp h
    cases he
    refine ⟨rfl, ?_⟩
    rintro _ ⟨⟩
    exact hr
  | fails e =>
    cases h
    exact ⟨rfl, nofun⟩
  | done | takes | lists => cases h

theorem os_create {k : Str} {a : Except String Unit} (h : os (.create k) d l = some (a, d')) :
    (a = .ok () ∧ d' = d.set k ⟨.regular, []⟩) ∨ ((∃ e, a = .error e) ∧ d' = d) := by
  cases l with
  | done =>
    obtain ⟨u, hu, he⟩ := Option.map_eq_some_iff.mp h
    obtain ⟨-, hu⟩ := Option.ite_none_right_eq_some.mp hu
    cases he
    cases hu
    exact Or.inl ⟨rfl, rfl⟩
  | fails e =>
    cases h
    exact Or.inr ⟨⟨e, rfl⟩, rfl⟩
  | draws | takes | lists => cases h

theorem os_write {k : Str} {a : Except String ℕ} (h : os (.write k bytes) d l = some (a, d')) :
    (∃ n data, a = .ok n ∧ d.lookup k = some ⟨.regular, data⟩ ∧
      d' = d.set k ⟨.regular, data ++ bytes.take n⟩) ∨ ((∃ e, a = .error e) ∧ d' = d) := by
  cases l with
  | takes n =>
    obtain ⟨u, hu, he⟩ := Option.map_eq_some_iff.mp h
    unfold Os.write at hu
    split at hu
    · rename_i data hdata
      obtain ⟨-, hu⟩ := Option.ite_none_right_eq_some.mp hu
      cases he
      cases hu
      exact Or.inl ⟨n, data, rfl, hdata, rfl⟩
    · cases hu
  | fails e =>
    cases h
    exact Or.inr ⟨⟨e, rfl⟩, rfl⟩
  | done | draws | lists => cases h

theorem os_rename {k k' : Str} {a : Except String Unit} (h : os (.rename k k') d l = some (a, d')) :
    (∃ n, a = .ok () ∧ d.lookup k = some n ∧ d' = (d.remove k).set k' n) ∨
      ((∃ e, a = .error e) ∧ d' = d) := by
  cases l with
  | done =>
    obtain ⟨u, hu, he⟩ := Option.map_eq_some_iff.mp h
    unfold Os.rename at hu
    split at hu
    · rename_i n hn
      obtain ⟨-, hu⟩ := Option.ite_none_left_eq_some.mp hu
      cases he
      cases hu
      exact Or.inl ⟨n, rfl, hn, rfl⟩
    · cases hu
  | fails e =>
    cases h
    exact Or.inr ⟨⟨e, rfl⟩, rfl⟩
  | draws | takes | lists => cases h

theorem os_syncDir {a : Except String Unit} (h : os .syncDir d l = some (a, d')) :
    d' = { d with synced := some a.isOk } := by
  cases l <;> cases h <;> rfl

theorem os_unlink {k : Str} {a : Except String Unit} (h : os (.unlink k) d l = some (a, d')) :
    (∃ n, d.lookup k = some n ∧ n.kind ≠ .directory ∧ d' = d.remove k) ∨
      (∃ e, l = .fails e) ∧ d' = d := by
  cases l with
  | done =>
    obtain ⟨u, hu, he⟩ := Option.map_eq_some_iff.mp h
    unfold Os.unlink at hu
    split at hu
    · rename_i n hn
      obtain ⟨hk, hu⟩ := Option.ite_none_left_eq_some.mp hu
      cases he
      cases hu
      exact Or.inl ⟨n, hn, hk, rfl⟩
    · cases hu
  | fails e =>
    cases h
    exact Or.inr ⟨⟨e, rfl⟩, rfl⟩
  | draws | takes | lists => cases h

end Calls

/-- Nothing is replaced yet, and the temporary file may be there. -/
structure Before (f : Folder) (tmp : Str) (d : Disk) : Prop where
  others : ∀ k, k ≠ tmp → d.lookup k = f.lookup k
  temporary : d.lookup tmp = f.lookup tmp ∨ d.lookup tmp = none ∨
    ∃ data, d.lookup tmp = some ⟨.regular, data⟩
  synced : d.synced = none

/-- The temporary file took the place of the file. -/
structure After (f : Folder) (name tmp : Str) (bytes : Bytes) (d : Disk) : Prop where
  others : ∀ k, k ≠ name → k ≠ tmp → d.lookup k = f.lookup k
  temporary : d.lookup tmp = none
  written : d.lookup name = some ⟨.regular, bytes⟩

def Point (f : Folder) (name tmp : Str) (bytes : Bytes) (d : Disk) : Prop :=
  Before f tmp d ∨ After f name tmp bytes d

/-- The temporary file is open, with some of the bytes. -/
structure Writing (f : Folder) (tmp : Str) (data : Bytes) (d : Disk) : Prop where
  others : ∀ k, k ≠ tmp → d.lookup k = f.lookup k
  temporary : d.lookup tmp = some ⟨.regular, data⟩
  synced : d.synced = none

namespace Writing

theorem before (h : Writing f tmp data d) : Before f tmp d :=
  ⟨h.others, Or.inr (Or.inr ⟨data, h.temporary⟩), h.synced⟩

theorem set (h : Before f tmp d) : Writing f tmp data (d.set tmp ⟨.regular, data⟩) := by
  constructor
  · intro k hk
    rw [Disk.lookup_set, if_neg hk, h.others k hk]
  · rw [Disk.lookup_set, if_pos rfl]
  · exact h.synced

theorem rename (h : Writing f tmp data d) (hne : name ≠ tmp) :
    After f name tmp data ((d.remove tmp).set name ⟨.regular, data⟩) := by
  constructor
  · intro k hk hk'
    rw [Disk.lookup_set, if_neg hk, Disk.lookup_remove, if_neg hk', h.others k hk']
  · rw [Disk.lookup_set, if_neg (Ne.symm hne), Disk.lookup_remove, if_pos rfl]
  · rw [Disk.lookup_set, if_pos rfl]

end Writing

/-- Whatever fails: `I` at every point, and `Q` of the result. -/
abbrev Always {α : Type} (I : Disk → Prop) (Q : α → Disk → Prop) (p : Prog Ans α) (d : Disk) :
    Prop :=
  machine.Holds (fun _ _ => True) I Q p d

theorem writeAll_spec {I : Disk → Prop} (hI : ∀ data d, Writing f tmp data d → I d) (done : ℕ)
    (h : Writing f tmp data d) :
    Always I (fun r d' => (∃ data', Writing f tmp data' d') ∧
      (r.isOk → Writing f tmp (data ++ bytes.drop done) d')) (writeAll tmp bytes done).run d := by
  induction bytes generalizing done data d with
  | nil => exact .ret_alone (hI _ _ h) ⟨⟨data, h⟩, fun _ => by simpa using h⟩
  | cons b rest ih =>
    cases done with
    | succ done => exact ih done h
    | zero =>
      refine .call_alone (hI _ _ h) fun l a d' _ ho => ?_
      rcases os_write ho with ⟨n, data', rfl, hdata, rfl⟩ | ⟨⟨e, rfl⟩, rfl⟩
      · obtain rfl : data = data' := by simpa [h.temporary] using hdata
        have hw : Writing f tmp (data ++ (b :: rest).take n) _ := .set h.before
        cases n with
        | zero => exact .ret_alone (hI _ _ hw) ⟨⟨_, hw⟩, nofun⟩
        | succ m =>
          have hih := ih m hw
          simp only [List.append_assoc, List.take_succ_cons, List.cons_append,
            List.take_append_drop] at hih
          exact hih
      · exact .ret_alone (hI _ _ h) ⟨⟨data, h⟩, nofun⟩

theorem replace_spec {I : Disk → Prop} (hI : ∀ d, Point f name tmp bytes d → I d) (hne : name ≠ tmp)
    (h : Before f tmp d) :
    Always I (fun r d' => (Before f tmp d' ∧ ¬ r.isOk) ∨
      (After f name tmp bytes d' ∧ d'.synced = some r.isOk)) (replace tmp name bytes).run d := by
  refine .call_alone (hI _ (Or.inl h)) fun l a d₁ _ ho => ?_
  rcases os_create ho with ⟨rfl, rfl⟩ | ⟨⟨e, rfl⟩, rfl⟩
  swap
  · exact .ret_alone (hI _ (Or.inl h)) (Or.inl ⟨h, nofun⟩)
  have hw : ∀ data d, Writing f tmp data d → I d := fun data d h => hI d (Or.inl h.before)
  refine .bind_except (writeAll_spec hw 0 (Writing.set h)) (fun _ d₂ h₂ => ?_) ?_
  swap
  · rintro e d₂ ⟨⟨data, h₂⟩, -⟩
    exact Or.inl ⟨h₂.before, nofun⟩
  have h₂ : Writing f tmp bytes d₂ := h₂.2 rfl
  refine .call_alone (hw _ _ h₂) fun l a d₃ _ ho => ?_
  obtain rfl := os_sync ho
  cases a with
  | error e => exact .ret_alone (hw _ _ h₂) (Or.inl ⟨h₂.before, nofun⟩)
  | ok =>
    refine .call_alone (hw _ _ h₂) fun l a d₄ _ ho => ?_
    rcases os_rename ho with ⟨n, rfl, hn, rfl⟩ | ⟨⟨e, rfl⟩, rfl⟩
    · obtain rfl : _ = n := by simpa [h₂.temporary] using hn
      have h₄ := h₂.rename hne
      refine .call_alone (hI _ (Or.inr h₄)) fun l a d₅ _ ho => ?_
      obtain rfl := os_syncDir ho
      have h₅ : After f name tmp bytes { (d₃.remove tmp).set name ⟨.regular, bytes⟩ with
          synced := some a.isOk } := ⟨h₄.others, h₄.temporary, h₄.written⟩
      exact .ret_alone (hI _ (Or.inr h₅)) (Or.inr ⟨h₅, rfl⟩)
    · exact .ret_alone (hw _ _ h₂) (Or.inl ⟨h₂.before, nofun⟩)

theorem name_ne_temporaryName (h : NameOk name) (r : Bytes) : name ≠ temporaryName name r := by
  intro he
  apply h.2.2.1
  rw [he]
  rfl

theorem Before.of (f : Folder) (tmp : Str) : Before f tmp { folder := f } :=
  ⟨fun _ _ => rfl, Or.inl rfl, rfl⟩

/-- No entry but the temporary one is gone or changed by its removal. -/
theorem Before.of_unlink {a : Except String Unit} (h : Before f tmp d)
    (ho : os (.unlink tmp) d l = some (a, d')) : Before f tmp d' := by
  rcases os_unlink ho with ⟨n, -, -, rfl⟩ | ⟨-, rfl⟩
  · constructor
    · intro k hk
      rw [Disk.lookup_remove, if_neg hk, h.others k hk]
    · exact Or.inr (Or.inl (by rw [Disk.lookup_remove, if_pos rfl]))
    · exact h.synced
  · exact h

/-- What replaced the file is not there under its temporary name. -/
theorem After.of_unlink {a : Except String Unit} (h : After f name tmp bytes d)
    (ho : os (.unlink tmp) d l = some (a, d')) : d' = d := by
  rcases os_unlink ho with ⟨n, hn, -, rfl⟩ | ⟨-, rfl⟩
  · exact absurd hn (by simp [h.temporary])
  · rfl

/-- A point of a write, under some temporary name. -/
def PointOf (f : Folder) (name : Str) (bytes : Bytes) (d : Disk) : Prop :=
  ∃ r, r.length = tmpRandomBytes ∧ Point f name (temporaryName name r) bytes d

theorem PointOf.of (f : Folder) (name : Str) (bytes : Bytes) :
    PointOf f name bytes { folder := f } :=
  ⟨List.replicate tmpRandomBytes 0, List.length_replicate, Or.inl (Before.of ..)⟩

inductive Ended (f : Folder) (name : Str) (bytes : Bytes) (d : Disk) : Except StoreError Unit → Prop
  | refused {e : StoreError} (h : d = { folder := f }) : Ended f name bytes d (.error e)
  | failed {tmp : Str} {e : StoreError} (h : Before f tmp d) (hne : name ≠ tmp) :
    Ended f name bytes d (.error e)
  | unsynced {tmp : Str} {e : StoreError} (h : After f name tmp bytes d)
    (hs : d.synced = some false) : Ended f name bytes d (.error e)
  | replaced {tmp : Str} (h : After f name tmp bytes d) (hs : d.synced = some true) :
    Ended f name bytes d (.ok ())

theorem write_spec (f : Folder) (name : Str) (bytes : Bytes) :
    Always (PointOf f name bytes) (fun r d => Ended f name bytes d r) (write name bytes).run
      { folder := f } := by
  have hp := PointOf.of f name bytes
  by_cases hname : NameOk name
  swap
  · have hc : checkName name = .error .badName := if_neg hname
    unfold write
    rw [hc]
    exact .ret_alone hp (.refused rfl)
  unfold write
  rw [checkName_eq_ok.mpr hname]
  refine .call_alone hp fun l a d _ ho => ?_
  obtain ⟨rfl, rfl | ⟨t, -, rfl⟩⟩ := os_openDir ho
  swap
  · exact .ret_alone hp (.refused rfl)
  refine .call_alone hp fun l a d _ ho => ?_
  obtain ⟨rfl, hr⟩ := os_random ho
  cases a with
  | error e => exact .ret_alone hp (.refused rfl)
  | ok r =>
    have hr := hr r rfl
    have hne := name_ne_temporaryName hname r
    have hI : ∀ d, Point f name (temporaryName name r) bytes d → PointOf f name bytes d :=
      fun d h => ⟨r, hr, h⟩
    refine .bind_lift (replace_spec hI hne (Before.of ..)) fun a d h => ?_
    cases a with
    | ok =>
      rcases h with ⟨-, hok⟩ | ⟨h, hs⟩
      · exact absurd rfl hok
      · exact .ret_alone (hI d (Or.inr h)) (.replaced h hs)
    | error e =>
      -- The removal of the temporary file changes nothing else, and may fail.
      rcases h with ⟨h, -⟩ | ⟨h, hs⟩
      · refine .call_alone (hI d (Or.inl h)) fun l a d' _ ho => ?_
        have h' := h.of_unlink ho
        exact .ret_alone (hI d' (Or.inl h')) (.failed h' hne)
      · refine .call_alone (hI d (Or.inr h)) fun l a d' _ ho => ?_
        obtain rfl := h.of_unlink ho
        exact .ret_alone (hI d' (Or.inr h)) (.unsynced h hs)

/-- The file is as it was if the `fsync` of the directory is not reached. -/
theorem Ended.lookup_eq_iff {r : Except StoreError Unit} (h : Ended f name bytes d r) :
    d.lookup name = f.lookup name ↔ d.synced = none ∨ f.lookup name = some ⟨.regular, bytes⟩ := by
  cases h with
  | refused h =>
    subst h
    exact iff_of_true rfl (Or.inl rfl)
  | failed h hne => exact iff_of_true (h.others name hne) (Or.inl h.synced)
  | unsynced h hs =>
    rw [h.written, hs]
    simp [eq_comm]
  | replaced h hs =>
    rw [h.written, hs]
    simp [eq_comm]

theorem Ended.synced_of_error {e : StoreError} (h : Ended f name bytes d (.error e)) :
    d.synced = none ∨ d.synced = some false := by
  cases h with
  | refused h =>
    subst h
    exact Or.inl rfl
  | failed h => exact Or.inl h.synced
  | unsynced _ hs => exact Or.inr hs

theorem along_true {p : Prog Ans (Except StoreError Unit)} {ls : List (Label Choice Empty)} :
    Along machine.step (fun _ _ => True) (p, d) ls :=
  along_of_forall (G := fun _ => True) fun _ _ => trivial

theorem pointOf_of_exec {p : Prog Ans (Except StoreError Unit)} {ls : List (Label Choice Empty)}
    (h : exec machine.step ((write name bytes).run, { folder := f }) ls = some (p, d)) :
    PointOf f name bytes d :=
  ((write_spec f name bytes).of_exec along_true h).inv

theorem ended_of_exec {r : Except StoreError Unit} {ls : List (Label Choice Empty)}
    (h : exec machine.step ((write name bytes).run, { folder := f }) ls = some (.ret r, d)) :
    Ended f name bytes d r :=
  ((write_spec f name bytes).of_exec along_true h).result

theorem ended_of_exec_writeJson {r : Except StoreError Unit} {json : Except String Bytes}
    {ls : List (Label Choice Empty)}
    (h : exec machine.step ((writeJson name json).run, { folder := f }) ls = some (.ret r, d)) :
    (d = { folder := f } ∧ ¬ r.isOk) ∨ ∃ bytes, json = .ok bytes ∧ Ended f name bytes d r := by
  cases json with
  | ok bytes => exact Or.inr ⟨bytes, rfl, ended_of_exec h⟩
  | error t =>
    have hs : Always (fun _ => True) (fun r d => d = { folder := f } ∧ ¬ r.isOk)
        (writeJson name (.error t)).run { folder := f } := .ret_alone trivial ⟨rfl, nofun⟩
    exact Or.inl (hs.of_exec along_true h).result

end Sukkula.Store
