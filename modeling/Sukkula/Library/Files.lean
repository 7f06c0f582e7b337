import Mathlib.Data.Nat.Basic
import Mathlib.Logic.Function.Basic
import Sukkula.Library.Assoc

/-! # Inodes, entries and descriptors

A file system as the calls on it see it: a table of inodes that only grows,
entries that name them, and the descriptors one process holds. An inode is live
while it has an entry, a descriptor or bytes on their way to it; its number is
its own for that long and may be given to a new inode afterwards. Entries are
keyed by an arbitrary type, such as a directory and a name.
-/

namespace Sukkula

abbrev Bytes := List UInt8

abbrev FileId := ℕ × ℕ

inductive Kind | regular | symlink | directory
  deriving DecidableEq, Repr

@[ext] structure Inode where
  id : FileId
  kind : Kind
  data : Bytes
  -- Bytes accepted from the process that have not reached the disk.
  pending : Bytes
  lost : Bool
  pos : ℕ
  ours : Bool
  removed : Bool
  deriving DecidableEq, Repr

def Inode.new (id : FileId) (kind : Kind) (data : Bytes) (ours : Bool) : Inode :=
  ⟨id, kind, data, [], false, 0, ours, false⟩

structure Files (K : Type) where
  next : ℕ
  node : ℕ → Inode
  links : List (K × ℕ)
  opened : List ℕ

namespace Files

variable {K : Type} {s : Files K} {k k' : K} {o x : ℕ} {i : Inode}

def lookup [DecidableEq K] (s : Files K) (k : K) : Option ℕ := s.links.lookup k

/-- The inode has an entry, a descriptor or bytes on their way. -/
def Live (s : Files K) (o : ℕ) : Prop :=
  o ∈ s.links.map Prod.snd ∨ o ∈ s.opened ∨ (s.node o).pending ≠ []

instance (s : Files K) (o : ℕ) : Decidable (s.Live o) := by unfold Live; infer_instance

def FreeId (s : Files K) (id : FileId) : Prop := ∀ o < s.next, s.Live o → (s.node o).id ≠ id

instance (s : Files K) (id : FileId) : Decidable (s.FreeId id) := by unfold FreeId; infer_instance

def touch (s : Files K) (o : ℕ) (i : Inode) : Files K :=
  { s with node := Function.update s.node o i }

def link (s : Files K) (k : K) (o : ℕ) : Files K := { s with links := (k, o) :: s.links }

def unlink [DecidableEq K] (s : Files K) (k : K) : Files K :=
  { s with links := s.links.filter (·.1 ≠ k) }

def add (s : Files K) (k : K) (i : Inode) : Files K :=
  { s with
    next := s.next + 1
    node := Function.update s.node s.next i
    links := (k, s.next) :: s.links }

def openFile (s : Files K) (o : ℕ) : Files K := { s with opened := o :: s.opened }

def close (s : Files K) (o : ℕ) : Files K := { s with opened := s.opened.filter (· ≠ o) }

/-- Live inodes are in the table, and no two have one number. -/
structure Wf (s : Files K) : Prop where
  bound : ∀ o, s.Live o → o < s.next
  distinct : ∀ o o', s.Live o → s.Live o' → (s.node o).id = (s.node o').id → o = o'

section Lookup

variable [DecidableEq K]

@[simp] theorem lookup_touch : (s.touch o i).lookup k = s.lookup k := rfl

@[simp] theorem lookup_link : (s.link k o).lookup k' = if k' = k then some o else s.lookup k' :=
  Assoc.lookup_cons

@[simp] theorem lookup_unlink : (s.unlink k).lookup k' = if k' = k then none else s.lookup k' :=
  Assoc.lookup_filter_ne

theorem link_unlink_comm (h : k' ≠ k) : (s.unlink k).link k' o = (s.link k' o).unlink k := by
  simp [link, unlink, h]

@[simp] theorem lookup_add : (s.add k i).lookup k' = if k' = k then some s.next else s.lookup k' :=
  lookup_link (s := s)

@[simp] theorem lookup_openFile : (s.openFile o).lookup k = s.lookup k := rfl

@[simp] theorem lookup_close : (s.close o).lookup k = s.lookup k := rfl

@[simp] theorem node_unlink : (s.unlink k).node = s.node := rfl

@[simp] theorem next_unlink : (s.unlink k).next = s.next := rfl

theorem mem_links_of_lookup (h : s.lookup k = some o) : (k, o) ∈ s.links := Assoc.mem_of_lookup h

theorem live_of_lookup (h : s.lookup k = some o) : s.Live o :=
  Or.inl (List.mem_map.mpr ⟨(k, o), mem_links_of_lookup h, rfl⟩)

theorem live_unlink (h : (s.unlink k).Live x) : s.Live x := by
  rcases h with h | h | h
  · exact Or.inl ((List.filter_sublist.map _).subset h)
  · exact Or.inr (Or.inl h)
  · exact Or.inr (Or.inr h)

end Lookup

theorem node_touch : (s.touch o i).node x = if x = o then i else s.node x :=
  Function.update_apply ..

theorem node_add : (s.add k i).node x = if x = s.next then i else s.node x :=
  Function.update_apply ..

@[simp] theorem node_link : (s.link k o).node = s.node := rfl

@[simp] theorem node_openFile : (s.openFile o).node = s.node := rfl

@[simp] theorem node_close : (s.close o).node = s.node := rfl

@[simp] theorem next_touch : (s.touch o i).next = s.next := rfl

@[simp] theorem next_link : (s.link k o).next = s.next := rfl

@[simp] theorem next_add : (s.add k i).next = s.next + 1 := rfl

@[simp] theorem next_openFile : (s.openFile o).next = s.next := rfl

@[simp] theorem next_close : (s.close o).next = s.next := rfl

theorem live_of_opened (h : o ∈ s.opened) : s.Live o := Or.inr (Or.inl h)

theorem live_touch (hi : i.pending ≠ [] → s.Live o) (h : (s.touch o i).Live x) : s.Live x := by
  rcases h with h | h | h
  · exact Or.inl h
  · exact Or.inr (Or.inl h)
  · rw [node_touch] at h
    split_ifs at h with hx
    · exact hx ▸ hi h
    · exact Or.inr (Or.inr h)

theorem live_link (ho : s.Live o) (h : (s.link k o).Live x) : s.Live x := by
  rcases h with h | h | h
  · rcases List.mem_cons.mp h with rfl | h
    · exact ho
    · exact Or.inl h
  · exact Or.inr (Or.inl h)
  · exact Or.inr (Or.inr h)

theorem live_add (h : (s.add k i).Live x) : x = s.next ∨ s.Live x := by
  rcases h with h | h | h
  · rcases List.mem_cons.mp h with rfl | h
    · exact Or.inl rfl
    · exact Or.inr (Or.inl h)
  · exact Or.inr (Or.inr (Or.inl h))
  · rw [node_add] at h
    split_ifs at h with hx
    · exact Or.inl hx
    · exact Or.inr (Or.inr (Or.inr h))

theorem live_openFile (ho : s.Live o) (h : (s.openFile o).Live x) : s.Live x := by
  rcases h with h | h | h
  · exact Or.inl h
  · rcases List.mem_cons.mp h with rfl | h
    · exact ho
    · exact Or.inr (Or.inl h)
  · exact Or.inr (Or.inr h)

theorem live_close (h : (s.close o).Live x) : s.Live x := by
  rcases h with h | h | h
  · exact Or.inl h
  · exact Or.inr (Or.inl (List.mem_filter.mp h).1)
  · exact Or.inr (Or.inr h)

namespace Wf

/-- Where no inode comes to life and none changes its number, nothing is lost. -/
theorem of_live {s' : Files K} (h : s.Wf) (hn : s.next ≤ s'.next)
    (hlive : ∀ x, s'.Live x → s.Live x) (hid : ∀ x, s.Live x → (s'.node x).id = (s.node x).id) :
    s'.Wf := by
  refine ⟨fun o ho => lt_of_lt_of_le (h.bound o (hlive o ho)) hn, fun a b ha hb he => ?_⟩
  have ha' := hlive a ha
  have hb' := hlive b hb
  exact h.distinct a b ha' hb' (by rw [← hid a ha', ← hid b hb', he])

theorem touch (h : s.Wf) (hid : i.id = (s.node o).id) (hi : i.pending ≠ [] → s.Live o) :
    (s.touch o i).Wf := by
  refine h.of_live le_rfl (fun x => live_touch hi) fun x _ => ?_
  rw [node_touch]
  split_ifs with hx
  · rw [hid, hx]
  · rfl

theorem link (h : s.Wf) (ho : s.Live o) : (s.link k o).Wf :=
  h.of_live le_rfl (fun _ => live_link ho) fun _ _ => rfl

theorem unlink [DecidableEq K] (h : s.Wf) : (s.unlink k).Wf :=
  h.of_live le_rfl (fun _ => live_unlink) fun _ _ => rfl

theorem openFile (h : s.Wf) (ho : s.Live o) : (s.openFile o).Wf :=
  h.of_live le_rfl (fun _ => live_openFile ho) fun _ _ => rfl

theorem close (h : s.Wf) : (s.close o).Wf := h.of_live le_rfl (fun _ => live_close) fun _ _ => rfl

theorem add (h : s.Wf) (hid : s.FreeId i.id) : (s.add k i).Wf := by
  have hnew : ∀ x, s.Live x → x ≠ s.next := fun x hx => ne_of_lt (h.bound x hx)
  refine ⟨fun o ho => ?_, fun a b ha hb he => ?_⟩
  · rcases live_add ho with rfl | ho
    · exact Nat.lt_succ_self _
    · exact lt_trans (h.bound o ho) (Nat.lt_succ_self _)
  · simp only [node_add] at he
    rcases live_add ha with rfl | ha <;> rcases live_add hb with rfl | hb
    · rfl
    · rw [if_pos rfl, if_neg (hnew b hb)] at he
      exact absurd he.symm (hid b (h.bound b hb) hb)
    · rw [if_pos rfl, if_neg (hnew a ha)] at he
      exact absurd he (hid a (h.bound a ha) ha)
    · rw [if_neg (hnew a ha), if_neg (hnew b hb)] at he
      exact h.distinct a b ha hb he

end Wf

end Files

end Sukkula
