/-!
# Frame rules for programs with state and failure

A program over a state `σ` may fail, and what it did before it failed does not
matter.  A frame is a property of states together with a relation between the
states before and after: `Stays` says that every successful run keeps the
property and goes along the relation.  There is one rule for each way to put
programs together.
-/

namespace StateFrame

variable {σ ε α β : Type}

/-- A property of states, and a relation that composes as long as the property
holds. -/
structure IsFrame (P : σ → Prop) (R : σ → σ → Prop) : Prop where
  refl : ∀ s, P s → R s s
  trans : ∀ s t u, P s → R s t → R t u → R s u

/-- Every successful run keeps `P` and goes along `R`. -/
def Stays (P : σ → Prop) (R : σ → σ → Prop) (x : StateT σ (Except ε) α) : Prop :=
  ∀ s a t, P s → x s = .ok (a, t) → P t ∧ R s t

/-- A successful run of two programs in sequence. -/
theorem bind_eq_ok {x : StateT σ (Except ε) α} {f : α → StateT σ (Except ε) β} {s u : σ} {b : β}
    (h : (x >>= f) s = .ok (b, u)) : ∃ a t, x s = .ok (a, t) ∧ f a t = .ok (b, u) := by
  simp only [bind, StateT.bind, Except.bind] at h
  split at h
  · cases h
  · next out hx => exact ⟨out.1, out.2, hx, h⟩

section

variable {P : σ → Prop} {R : σ → σ → Prop}

theorem Stays.pure (hframe : IsFrame P R) (a : α) :
    Stays P R (Pure.pure a : StateT σ (Except ε) α) := by
  intro s b t hs h
  obtain ⟨rfl, rfl⟩ := Prod.mk.inj (Except.ok.inj h)
  exact ⟨hs, hframe.refl s hs⟩

/-- A run that continues from a state that the frame already reached. -/
theorem Stays.after (hframe : IsFrame P R) {x : StateT σ (Except ε) α} {s t u : σ} {a : α}
    (hx : Stays P R x) (hs : P s) (hmid : P t ∧ R s t) (h : x t = .ok (a, u)) : P u ∧ R s u := by
  obtain ⟨hu, hlast⟩ := hx t a u hmid.1 h
  exact ⟨hu, hframe.trans s t u hs hmid.2 hlast⟩

theorem Stays.bind (hframe : IsFrame P R) {x : StateT σ (Except ε) α}
    {f : α → StateT σ (Except ε) β} (hx : Stays P R x) (hf : ∀ a, Stays P R (f a)) :
    Stays P R (x >>= f) := by
  intro s b u hs h
  obtain ⟨a, t, hfirst, hrest⟩ := bind_eq_ok h
  exact (hf a).after hframe hs (hx s a t hs hfirst) hrest

theorem Stays.ite {c : Prop} [Decidable c] {x y : StateT σ (Except ε) α} (hx : Stays P R x)
    (hy : Stays P R y) : Stays P R (if c then x else y) := by
  split
  · exact hx
  · exact hy

/-- A program that never succeeds. -/
theorem Stays.of_error {x : StateT σ (Except ε) α} (h : ∀ s, ∃ e, x s = .error e) :
    Stays P R x := by
  intro s a t _ hrun
  obtain ⟨e, he⟩ := h s
  rw [he] at hrun
  cases hrun

end

end StateFrame
