import Sukkula.Inbox.Books

/-! # What a call can answer

One inversion lemma for each call: the answers it can get, and what the disk is
then.
-/

namespace Sukkula.Inbox

variable {s s' : Disk} {l : Choice} {d : Dir} {k k' : Key} {o max : ℕ} {b : Bytes}

theorem os_openDir {a : Except Errno Unit} (h : os (.openDir d) s l = some (a, s')) :
    s' = s ∧ (a = .ok () → s.Present d) ∧ a ≠ .error .exist := by
  replace h : Os.openDir d s l = some (a, s') := h
  cases l with
  | done =>
    obtain ⟨rfl, rfl⟩ := Prod.mk.inj (Option.some.inj h)
    unfold openDirAns Disk.Present
    split_ifs with hd
    · cases hl : s.lookup (.target, stagingDir) with
      | none => simp
      | some o => cases hk : s.kind o <;> simp [hk]
    · simp [hd]
  | fails e =>
    simp only [Os.openDir] at h
    split_ifs at h with he
    obtain ⟨rfl, rfl⟩ := Prod.mk.inj (Option.some.inj h)
    exact ⟨rfl, nofun, by simpa using he⟩
  | _ => cases h

theorem os_mkdir {a : Except Errno Unit} (h : os (.mkdir d) s l = some (a, s')) :
    s' = s ∨ d = .copies ∧ ∃ id, s.FreeId id ∧ s.lookup (.target, stagingDir) = none ∧
      s' = s.on (s.add (.target, stagingDir) (.new id .directory [] false)) := by
  replace h : Os.mkdir d s l = some (a, s') := h
  cases l with
  | done =>
    simp only [Os.mkdir] at h
    split_ifs at h
    exact Or.inl (Prod.mk.inj (Option.some.inj h)).2.symm
  | fails e => exact Or.inl (Prod.mk.inj (Option.some.inj h)).2.symm
  | numbered id =>
    simp only [Os.mkdir] at h
    split_ifs at h with hc
    split at h
    · exact Or.inl (Prod.mk.inj (Option.some.inj h)).2.symm
    · exact Or.inr ⟨hc.1, id, hc.2, ‹_›, (Prod.mk.inj (Option.some.inj h)).2.symm⟩
  | _ => cases h

theorem os_statDir {a : Except Errno DirStat} (h : os (.statDir d) s l = some (a, s')) :
    s' = s ∧ a ≠ .error .exist ∧ ∀ st, a = .ok st → st.ours = !s.foreign d := by
  replace h : Os.statDir d s l = some (a, s') := h
  cases l with
  | mode m =>
    obtain ⟨rfl, rfl⟩ := Prod.mk.inj (Option.some.inj h)
    refine ⟨rfl, nofun, fun st hst => ?_⟩
    obtain rfl := Except.ok.inj hst
    rfl
  | fails e =>
    simp only [Os.statDir] at h
    split_ifs at h with he
    obtain ⟨rfl, rfl⟩ := Prod.mk.inj (Option.some.inj h)
    exact ⟨rfl, by simpa using he, nofun⟩
  | _ => cases h

theorem os_chmod {a : Except Errno Unit} {m : BitVec 12} (h : os (.chmod d m) s l = some (a, s')) :
    s' = s ∧ a ≠ .error .exist := by
  replace h : Os.chmod s l = some (a, s') := h
  cases l with
  | done =>
    obtain ⟨rfl, rfl⟩ := Prod.mk.inj (Option.some.inj h)
    exact ⟨rfl, nofun⟩
  | fails e =>
    simp only [Os.chmod] at h
    split_ifs at h with he
    obtain ⟨rfl, rfl⟩ := Prod.mk.inj (Option.some.inj h)
    exact ⟨rfl, by simpa using he⟩
  | _ => cases h

theorem os_random {a : Except String Bytes} (h : os .random s l = some (a, s')) : s' = s := by
  replace h : Os.random s l = some (a, s') := h
  cases l with
  | draws b =>
    simp only [Os.random] at h
    split_ifs at h
    exact (Prod.mk.inj (Option.some.inj h)).2.symm
  | noRandom => exact (Prod.mk.inj (Option.some.inj h)).2.symm
  | _ => cases h

theorem os_create {a : Except Errno ℕ} (h : os (.create k) s l = some (a, s')) :
    (∃ id, s.Present k.1 ∧ s.FreeId id ∧ s.lookup k = none ∧ a = .ok s.next ∧
      s' = s.on ((s.add k (.new id .regular [] true)).openFile s.next)) ∨
    (a = .error .exist ∧ s' = { s with drewTaken := true }) ∨
    (∃ e, e ≠ .exist ∧ a = .error e ∧ s' = s) := by
  replace h : Os.create k s l = some (a, s') := h
  cases l with
  | numbered id =>
    simp only [Os.create] at h
    split_ifs at h with hc
    split at h
    · obtain ⟨rfl, rfl⟩ := Prod.mk.inj (Option.some.inj h)
      exact Or.inr (Or.inl ⟨rfl, rfl⟩)
    · obtain ⟨rfl, rfl⟩ := Prod.mk.inj (Option.some.inj h)
      exact Or.inl ⟨id, hc.1, hc.2, ‹_›, rfl, rfl⟩
  | done =>
    simp only [Os.create] at h
    split_ifs at h
    obtain ⟨rfl, rfl⟩ := Prod.mk.inj (Option.some.inj h)
    exact Or.inr (Or.inr ⟨.noent, nofun, rfl, rfl⟩)
  | fails e =>
    simp only [Os.create] at h
    split_ifs at h with he
    obtain ⟨rfl, rfl⟩ := Prod.mk.inj (Option.some.inj h)
    exact Or.inr (Or.inr ⟨e, he, rfl, rfl⟩)
  | _ => cases h

theorem os_fstat {last : Bool} {a : Except Errno Stat} (h : os (.fstat o last) s l = some (a, s')) :
    (a = .ok (s.statOf o) ∧ s' = s) ∨ (∃ e, e ≠ .exist ∧ a = .error e ∧ s' = s.statFails last) := by
  replace h : Os.fstat o last s l = some (a, s') := h
  cases l with
  | done =>
    obtain ⟨rfl, rfl⟩ := Prod.mk.inj (Option.some.inj h)
    exact Or.inl ⟨rfl, rfl⟩
  | fails e =>
    simp only [Os.fstat] at h
    split_ifs at h with he
    obtain ⟨rfl, rfl⟩ := Prod.mk.inj (Option.some.inj h)
    exact Or.inr ⟨e, he, rfl, rfl⟩
  | _ => cases h

theorem os_stat {last : Bool} {a : Except Errno Stat} (h : os (.stat k last) s l = some (a, s')) :
    (∃ o, s.lookup k = some o ∧ a = .ok (s.statOf o) ∧ s' = s) ∨
    (s.lookup k = none ∧ a = .error .noent ∧ s' = s) ∨
    (∃ e, e ≠ .exist ∧ a = .error e ∧ s' = s.statFails last) := by
  replace h : Os.stat k last s l = some (a, s') := h
  cases l with
  | done =>
    simp only [Os.stat] at h
    split at h
    · obtain ⟨rfl, rfl⟩ := Prod.mk.inj (Option.some.inj h)
      exact Or.inl ⟨_, ‹_›, rfl, rfl⟩
    · obtain ⟨rfl, rfl⟩ := Prod.mk.inj (Option.some.inj h)
      exact Or.inr (Or.inl ⟨‹_›, rfl, rfl⟩)
  | fails e =>
    simp only [Os.stat] at h
    split_ifs at h with he
    obtain ⟨rfl, rfl⟩ := Prod.mk.inj (Option.some.inj h)
    exact Or.inr (Or.inr ⟨e, he, rfl, rfl⟩)
  | _ => cases h

theorem os_link {a : Except Errno Unit} (h : os (.link k k') s l = some (a, s')) :
    (∃ o, s.lookup k = some o ∧ s.lookup k' = none ∧ s.kind o ≠ .directory ∧ a = .ok () ∧
      s' = s.on (s.link k' o)) ∨
    (∃ e, (e = .exist → s.lookup k' ≠ none) ∧ a = .error e ∧ s' = s) := by
  replace h : Os.link k k' s l = some (a, s') := h
  cases l with
  | done =>
    simp only [Os.link] at h
    split at h
    · obtain ⟨rfl, rfl⟩ := Prod.mk.inj (Option.some.inj h)
      exact Or.inr ⟨.noent, nofun, rfl, rfl⟩
    · obtain ⟨rfl, rfl⟩ := Prod.mk.inj (Option.some.inj h)
      exact Or.inr ⟨_, by simp_all, rfl, rfl⟩
    · split_ifs at h with hd
      · obtain ⟨rfl, rfl⟩ := Prod.mk.inj (Option.some.inj h)
        exact Or.inr ⟨.perm, nofun, rfl, rfl⟩
      · obtain ⟨rfl, rfl⟩ := Prod.mk.inj (Option.some.inj h)
        exact Or.inl ⟨_, ‹_›, ‹_›, hd, rfl, rfl⟩
  | fails e =>
    simp only [Os.link] at h
    split_ifs at h with he
    obtain ⟨rfl, rfl⟩ := Prod.mk.inj (Option.some.inj h)
    exact Or.inr ⟨e, fun h1 h2 => he ⟨h1, h2⟩, rfl, rfl⟩
  | _ => cases h

theorem os_rename {a : Except Errno Unit} (h : os (.rename k k') s l = some (a, s')) :
    (∃ o, s.lookup k = some o ∧ s.lookup k' = none ∧ a = .ok () ∧
      s' = s.on ((s.unlink k).link k' o)) ∨
    (∃ e, (e = .exist → s.lookup k' ≠ none) ∧ a = .error e ∧ s' = s) := by
  replace h : Os.rename k k' s l = some (a, s') := h
  cases l with
  | done =>
    simp only [Os.rename] at h
    split at h
    · obtain ⟨rfl, rfl⟩ := Prod.mk.inj (Option.some.inj h)
      exact Or.inr ⟨.noent, nofun, rfl, rfl⟩
    · obtain ⟨rfl, rfl⟩ := Prod.mk.inj (Option.some.inj h)
      exact Or.inr ⟨_, by simp_all, rfl, rfl⟩
    · obtain ⟨rfl, rfl⟩ := Prod.mk.inj (Option.some.inj h)
      exact Or.inl ⟨_, ‹_›, ‹_›, rfl, rfl⟩
  | fails e =>
    simp only [Os.rename] at h
    split_ifs at h with he
    obtain ⟨rfl, rfl⟩ := Prod.mk.inj (Option.some.inj h)
    exact Or.inr ⟨e, fun h1 h2 => he ⟨h1, h2⟩, rfl, rfl⟩
  | _ => cases h

theorem os_unlink {a : Except Errno Unit} (h : os (.unlink k) s l = some (a, s')) :
    (∃ o, s.lookup k = some o ∧ s.kind o ≠ .directory ∧ s' = s.remove k o) ∨
    ((∀ o, s.lookup k = some o → s.kind o = .directory) ∧ s' = s) := by
  replace h : Os.unlink k s l = some (a, s') := h
  cases l with
  | done =>
    simp only [Os.unlink] at h
    split at h
    · exact Or.inr ⟨by simp_all, (Prod.mk.inj (Option.some.inj h)).2.symm⟩
    · split_ifs at h with hd
      · exact Or.inr ⟨by simp_all, (Prod.mk.inj (Option.some.inj h)).2.symm⟩
      · exact Or.inl ⟨_, ‹_›, hd, (Prod.mk.inj (Option.some.inj h)).2.symm⟩
  | _ => cases h

theorem os_write {a : Except (Stop Errno) Unit} (h : os (.write o b) s l = some (a, s')) :
    (a = .ok () ∧ (s.node o).lost = false ∧ s' = s.accept o b) ∨
    (∃ e n, e ≠ .failed .exist ∧ a = .error e ∧ s' = s.accept o (b.take n)) := by
  replace h : Os.write o b s l = some (a, s') := h
  cases l with
  | done =>
    simp only [Os.write] at h
    split_ifs at h with hl
    obtain ⟨rfl, rfl⟩ := Prod.mk.inj (Option.some.inj h)
    exact Or.inl ⟨rfl, by simpa using hl, rfl⟩
  | stops n e =>
    simp only [Os.write] at h
    split_ifs at h with he
    obtain ⟨rfl, rfl⟩ := Prod.mk.inj (Option.some.inj h)
    exact Or.inr ⟨e, n, he, rfl, rfl⟩
  | _ => cases h

theorem os_flush {a : Except (Stop Errno) Unit} (h : os (.flush o) s l = some (a, s')) :
    (a = .ok () ∧ (s.node o).lost = false ∧ s' = s.land o (s.node o).pending.length) ∨
    (∃ e, e ≠ .failed .exist ∧ a = .error e ∧ s' = s) := by
  replace h : Os.flush o s l = some (a, s') := h
  cases l with
  | done =>
    simp only [Os.flush] at h
    split_ifs at h with hl
    obtain ⟨rfl, rfl⟩ := Prod.mk.inj (Option.some.inj h)
    exact Or.inl ⟨rfl, by simpa using hl, rfl⟩
  | stops n e =>
    simp only [Os.flush] at h
    split_ifs at h with he
    obtain ⟨rfl, rfl⟩ := Prod.mk.inj (Option.some.inj h)
    exact Or.inr ⟨e, he, rfl, rfl⟩
  | _ => cases h

theorem os_sync {a : Except (Stop Errno) Unit} (h : os (.sync o) s l = some (a, s')) :
    s' = s ∧ a ≠ .error (.failed .exist) := by
  replace h : Os.sync s l = some (a, s') := h
  cases l with
  | done =>
    obtain ⟨rfl, rfl⟩ := Prod.mk.inj (Option.some.inj h)
    exact ⟨rfl, nofun⟩
  | stops n e =>
    simp only [Os.sync] at h
    split_ifs at h with he
    obtain ⟨rfl, rfl⟩ := Prod.mk.inj (Option.some.inj h)
    exact ⟨rfl, by simpa using he⟩
  | _ => cases h

theorem os_seek {a : Except (Stop Errno) Unit} (h : os (.seek o) s l = some (a, s')) :
    (a = .ok () ∧ s' = s.atPos o 0) ∨ (∃ e, e ≠ .failed .exist ∧ a = .error e ∧ s' = s) := by
  replace h : Os.seek o s l = some (a, s') := h
  cases l with
  | done =>
    obtain ⟨rfl, rfl⟩ := Prod.mk.inj (Option.some.inj h)
    exact Or.inl ⟨rfl, rfl⟩
  | stops n e =>
    simp only [Os.seek] at h
    split_ifs at h with he
    obtain ⟨rfl, rfl⟩ := Prod.mk.inj (Option.some.inj h)
    exact Or.inr ⟨e, he, rfl, rfl⟩
  | _ => cases h

theorem os_read {a : Except (Stop Errno) Bytes} (h : os (.read o max) s l = some (a, s')) :
    (∃ n, n ≤ max ∧ n ≤ ((s.node o).data.drop (s.node o).pos).length ∧
      (n = 0 → max = 0 ∨ (s.node o).data.drop (s.node o).pos = []) ∧
      a = .ok (((s.node o).data.drop (s.node o).pos).take n) ∧
      s' = s.atPos o ((s.node o).pos + n)) ∨
    (∃ e, e ≠ .failed .exist ∧ a = .error e ∧ s' = s) := by
  replace h : Os.read o max s l = some (a, s') := h
  cases l with
  | takes n =>
    simp only [Os.read] at h
    split_ifs at h with hn
    obtain ⟨rfl, rfl⟩ := Prod.mk.inj (Option.some.inj h)
    exact Or.inl ⟨n, hn.1, hn.2.1, hn.2.2, rfl, rfl⟩
  | stops n e =>
    simp only [Os.read] at h
    split_ifs at h with he
    obtain ⟨rfl, rfl⟩ := Prod.mk.inj (Option.some.inj h)
    exact Or.inr ⟨e, he, rfl, rfl⟩
  | _ => cases h

theorem os_close {a : Unit} (h : os (.close o) s l = some (a, s')) : s' = s.on (s.close o) := by
  replace h : Os.close o s l = some (a, s') := h
  cases l with
  | done => exact (Prod.mk.inj (Option.some.inj h)).2.symm
  | _ => cases h

theorem os_list {a : Except Errno (List DirEntry)} (h : os (.list d) s l = some (a, s')) :
    s' = s ∧ ∀ es, a = .ok es → s.Lists d es := by
  replace h : Os.list d s l = some (a, s') := h
  cases l with
  | lists es =>
    simp only [Os.list] at h
    split_ifs at h with hl
    obtain ⟨rfl, rfl⟩ := Prod.mk.inj (Option.some.inj h)
    exact ⟨rfl, fun _ he => Except.ok.inj he ▸ hl⟩
  | fails e =>
    obtain ⟨rfl, rfl⟩ := Prod.mk.inj (Option.some.inj h)
    exact ⟨rfl, nofun⟩
  | _ => cases h

theorem drewTaken_statFails (s : Disk) (last : Bool) :
    (s.statFails last).drewTaken = s.drewTaken := by
  cases last <;> rfl

theorem os_drewTaken {c : Call} {a : Ans c} (h : os c s l = some (a, s'))
    (hs : s.drewTaken = true) : s'.drewTaken = true := by
  cases c with
  | openDir => exact (os_openDir h).1 ▸ hs
  | mkdir =>
    rcases os_mkdir h with rfl | ⟨-, id, -, -, rfl⟩
    · exact hs
    · exact hs
  | statDir => exact (os_statDir h).1 ▸ hs
  | chmod => exact (os_chmod h).1 ▸ hs
  | random => exact os_random h ▸ hs
  | create =>
    rcases os_create h with ⟨id, -, -, -, -, rfl⟩ | ⟨-, rfl⟩ | ⟨e, -, -, rfl⟩
    · exact hs
    · rfl
    · exact hs
  | fstat =>
    rcases os_fstat h with ⟨-, rfl⟩ | ⟨e, -, -, rfl⟩
    · exact hs
    · exact (drewTaken_statFails s _).trans hs
  | stat =>
    rcases os_stat h with ⟨o, -, -, rfl⟩ | ⟨-, -, rfl⟩ | ⟨e, -, -, rfl⟩
    · exact hs
    · exact hs
    · exact (drewTaken_statFails s _).trans hs
  | link =>
    rcases os_link h with ⟨o, -, -, -, -, rfl⟩ | ⟨e, -, -, rfl⟩ <;> exact hs
  | rename =>
    rcases os_rename h with ⟨o, -, -, -, rfl⟩ | ⟨e, -, -, rfl⟩ <;> exact hs
  | unlink =>
    rcases os_unlink h with ⟨o, -, -, rfl⟩ | ⟨-, rfl⟩ <;> exact hs
  | write =>
    rcases os_write h with ⟨-, -, rfl⟩ | ⟨e, n, -, -, rfl⟩ <;> exact hs
  | flush =>
    rcases os_flush h with ⟨-, -, rfl⟩ | ⟨e, -, -, rfl⟩ <;> exact hs
  | sync => exact (os_sync h).1 ▸ hs
  | seek =>
    rcases os_seek h with ⟨-, rfl⟩ | ⟨e, -, -, rfl⟩ <;> exact hs
  | read =>
    rcases os_read h with ⟨n, -, -, -, -, rfl⟩ | ⟨e, -, -, rfl⟩ <;> exact hs
  | close => exact os_close h ▸ hs
  | list => exact (os_list h).1 ▸ hs

theorem env_drewTaken {a : Act} (h : env s a = some s') : s'.drewTaken = s.drewTaken := by
  cases a with
  | land | unlink | alter => exact Option.some.inj h ▸ rfl
  | lose =>
    simp only [env] at h
    split_ifs at h
    exact Option.some.inj h ▸ rfl
  | link =>
    simp only [env] at h
    split at h
    · split_ifs at h
      exact Option.some.inj h ▸ rfl
    · cases h
  | create =>
    simp only [env] at h
    split_ifs at h
    exact Option.some.inj h ▸ rfl

end Sukkula.Inbox
