import Mathlib.Data.List.Infix

/-! # Loops that copy a list

A loop reads a list element by element and may stop early. Where every turn puts
out at most one element more, a list that comes out as it went in is one of which
no element was dropped, and so is every prefix of it.
-/

namespace Sukkula.Loop

variable {σ α ε : Type*} {step : σ → α → Except ε σ} {s s' : σ} {c : α} {w u : List α}

theorem foldlM_concat_eq_ok :
    (w ++ [c]).foldlM step s = .ok s' ↔ ∃ t, w.foldlM step s = .ok t ∧ step t c = .ok s' := by
  rw [List.foldlM_append]
  cases w.foldlM step s with
  | error e => simp [Bind.bind, Except.bind]
  | ok t =>
    simp only [List.foldlM_cons, List.foldlM_nil, Except.ok.injEq, exists_eq_left']
    cases hc : step t c <;> simp [hc, Bind.bind, Except.bind, Pure.pure, Except.pure]

theorem foldlM_concat_eq_error {e : ε} (h : (w ++ [c]).foldlM step s = .error e) :
    w.foldlM step s = .error e ∨ ∃ t, w.foldlM step s = .ok t ∧ step t c = .error e := by
  rw [List.foldlM_append] at h
  cases hr : w.foldlM step s with
  | error e' =>
    simp only [hr, Bind.bind, Except.bind] at h
    exact Or.inl h
  | ok t =>
    refine Or.inr ⟨t, rfl, ?_⟩
    simp only [hr, List.foldlM_cons, List.foldlM_nil, Bind.bind, Except.bind] at h
    cases hc : step t c with
    | error e' => simpa [hc] using h
    | ok t' => simp [hc, Pure.pure, Except.pure] at h

/-- An invariant kept by every turn holds of what the loop comes to. -/
theorem foldlM_invariant {I : σ → Prop} (hstep : ∀ s c s', I s → step s c = .ok s' → I s')
    (hs : I s) (h : w.foldlM step s = .ok s') : I s' := by
  induction w using List.reverseRecOn generalizing s' with
  | nil => exact Except.ok.inj h ▸ hs
  | append_singleton w c ih =>
    obtain ⟨t, ht, hc⟩ := foldlM_concat_eq_ok.mp h
    exact hstep t c s' (ih ht) hc

theorem exists_of_foldlM_eq_error {e : ε} (h : w.foldlM step s = .error e) :
    ∃ u c v t, w = u ++ c :: v ∧ u.foldlM step s = .ok t ∧ step t c = .error e := by
  induction w using List.reverseRecOn with
  | nil => cases h
  | append_singleton w c ih =>
    rcases foldlM_concat_eq_error h with hw | ⟨t, hw, hc⟩
    · obtain ⟨u, d, v, t, rfl, hu, hd⟩ := ih hw
      exact ⟨u, d, v ++ [c], t, by simp, hu, hd⟩
    · exact ⟨w, c, [], t, rfl, hw, hc⟩

theorem foldlM_eq_error {I : σ → Prop} (hstep : ∀ s c s', I s → step s c = .ok s' → I s') (hs : I s)
    {e : ε} (h : w.foldlM step s = .error e) : ∃ t c, I t ∧ step t c = .error e := by
  obtain ⟨u, c, v, t, -, hu, hc⟩ := exists_of_foldlM_eq_error h
  exact ⟨t, c, foldlM_invariant hstep hs hu, hc⟩

theorem foldlM_eq_foldl {f : σ → α → σ} (hf : ∀ s c s', step s c = .ok s' → s' = f s c)
    (h : w.foldlM step s = .ok s') : s' = w.foldl f s := by
  induction w using List.reverseRecOn generalizing s' with
  | nil => exact (Except.ok.inj h).symm
  | append_singleton w c ih =>
    obtain ⟨t, ht, hc⟩ := foldlM_concat_eq_ok.mp h
    rw [List.foldl_append, ← ih ht]
    exact hf t c s' hc

/-- A turn of the loop makes what is put out no longer, or longer by one element at its end. -/
def Appends (step : σ → α → Except ε σ) (text : σ → List α) : Prop :=
  ∀ s c s', step s c = .ok s' → (text s').length ≤ (text s).length ∨ ∃ x, text s' = text s ++ [x]

def Settled (step : σ → α → Except ε σ) (text : σ → List α) (s : σ) (w : List α) : Prop :=
  ∃ s', w.foldlM step s = .ok s' ∧ text s' = w

variable {text : σ → List α}

theorem Appends.length_le (h : Appends step text) (hs : text s = [])
    (hw : w.foldlM step s = .ok s') : (text s').length ≤ w.length := by
  induction w using List.reverseRecOn generalizing s' with
  | nil =>
    obtain rfl := Except.ok.inj hw
    simp [hs]
  | append_singleton w c ih =>
    obtain ⟨t, ht, hc⟩ := foldlM_concat_eq_ok.mp hw
    have hlen := ih ht
    rw [List.length_append, List.length_singleton]
    rcases h t c s' hc with hle | ⟨x, hx⟩
    · omega
    · rw [hx, List.length_append, List.length_singleton]
      omega

theorem Settled.of_concat (h : Settled step text s (w ++ [c])) (ha : Appends step text)
    (hs : text s = []) : Settled step text s w := by
  obtain ⟨s', hw, ht⟩ := h
  obtain ⟨t, hrun, hc⟩ := foldlM_concat_eq_ok.mp hw
  have hlen := ha.length_le hs hrun
  refine ⟨t, hrun, ?_⟩
  rcases ha t c s' hc with hle | ⟨x, hx⟩
  · rw [ht, List.length_append, List.length_singleton] at hle
    omega
  · exact (List.append_inj' (hx.symm.trans ht) rfl).1

theorem Settled.of_isPrefix (h : Settled step text s w) (ha : Appends step text) (hs : text s = [])
    (hu : u <+: w) : Settled step text s u := by
  obtain ⟨v, rfl⟩ := hu
  induction v using List.reverseRecOn with
  | nil => simpa using h
  | append_singleton v c ih =>
    rw [← List.append_assoc] at h
    exact ih (h.of_concat ha hs)

end Sukkula.Loop
