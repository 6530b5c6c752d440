import BlocksRuntime.StateFrame

/-!
# Refinement of programs with state and failure

A concrete program over states `τ` does the work of an abstract one over states
`σ`.  `R` relates the states.  `Refines` asks nothing where the abstract program
fails, and nothing where it ends in a state that the guard `G` rules out: a
resource that is bounded in the concrete program only.

`EndsWith` looks at the last step of a program only.

`runAll` runs a list of steps, and `runAll_simulates` takes a simulation of
single steps to lists.
-/

namespace StateRefinement

open StateFrame

variable {σ τ ε α β : Type}

/-- Whenever the abstract program returns and the guard holds, the concrete one
returns the same result. -/
def Refines (R : τ → σ → Prop) (G : σ → Prop) (x : StateT τ (Except ε) α)
    (y : StateT σ (Except ε) α) : Prop :=
  ∀ r s a t, R r s → y s = .ok (a, t) → G t → ∃ u, x r = .ok (a, u) ∧ R u t

/-- A run that continues after its first part. -/
theorem run_bind {x : StateT σ (Except ε) α} {f : α → StateT σ (Except ε) β} {s t : σ} {a : α}
    (h : x s = .ok (a, t)) : (x >>= f) s = f a t := by
  simp only [bind, StateT.bind, h]
  rfl

section

variable {R : τ → σ → Prop} {G : σ → Prop}

theorem Refines.pure (a : α) :
    Refines R G (Pure.pure a : StateT τ (Except ε) α) (Pure.pure a) := by
  intro r s b t hr h _
  obtain ⟨rfl, rfl⟩ := Prod.mk.inj (Except.ok.inj h)
  exact ⟨r, rfl, hr⟩

/-- Nothing is asked where the abstract program fails. -/
theorem Refines.of_error {x : StateT τ (Except ε) α} {y : StateT σ (Except ε) α}
    (h : ∀ s, ∃ e, y s = .error e) : Refines R G x y := by
  intro r s a t _ hrun _
  obtain ⟨e, he⟩ := h s
  rw [he] at hrun
  cases hrun

theorem Refines.ite {c : Prop} [Decidable c] {x x' : StateT τ (Except ε) α}
    {y y' : StateT σ (Except ε) α} (h : Refines R G x y) (h' : Refines R G x' y') :
    Refines R G (if c then x else x') (if c then y else y') := by
  split
  · exact h
  · exact h'

end

/-! ## The last step -/

/-- What holds of the result and the final state of every successful run. -/
def EndsWith (Q : α → σ → Prop) (y : StateT σ (Except ε) α) : Prop :=
  ∀ s a t, y s = .ok (a, t) → Q a t

section

variable {Q : β → σ → Prop}

/-- Only the second part matters. -/
theorem EndsWith.bind {y : StateT σ (Except ε) α} {g : α → StateT σ (Except ε) β}
    (h : ∀ a, EndsWith Q (g a)) : EndsWith Q (y >>= g) := by
  intro s b t hrun
  obtain ⟨a, s', _, hg⟩ := bind_eq_ok hrun
  exact h a s' b t hg

theorem EndsWith.ite {c : Prop} [Decidable c] {x y : StateT σ (Except ε) β} (hx : EndsWith Q x)
    (hy : EndsWith Q y) : EndsWith Q (if c then x else y) := by
  split
  · exact hx
  · exact hy

end

/-! ## Lists of steps -/

section Steps

variable {ι κ : Type} {step : ι → σ → Except ε (α × σ)} {step' : κ → τ → Except ε (α × τ)}

/-- Make the steps one after the other, and collect the results. -/
def runAll (step : ι → σ → Except ε (α × σ)) : List ι → σ → Except ε (List α × σ)
  | [], s => .ok ([], s)
  | i :: is, s =>
    match step i s with
    | .error e => .error e
    | .ok (a, t) =>
      match runAll step is t with
      | .error e => .error e
      | .ok (as, u) => .ok (a :: as, u)

theorem runAll_cons {i : ι} {is : List ι} {s t u : σ} {a : α} {as : List α}
    (h : step i s = .ok (a, t)) (hs : runAll step is t = .ok (as, u)) :
    runAll step (i :: is) s = .ok (a :: as, u) := by
  simp only [runAll, h, hs]

/-- Pairs of steps, each of which is allowed when it is reached.  The guard
holds in between. -/
def AllAllowed (G : σ → Prop) (allowed : ι → κ → σ → Prop) (step : ι → σ → Except ε (α × σ)) :
    List (ι × κ) → σ → Prop
  | [], _ => True
  | p :: ps, s =>
    allowed p.1 p.2 s ∧ ∀ a t, step p.1 s = .ok (a, t) → G t ∧ AllAllowed G allowed step ps t

theorem AllAllowed.cons {G : σ → Prop} {allowed : ι → κ → σ → Prop} {p : ι × κ} {ps : List (ι × κ)}
    {s t : σ} {a : α} (ha : allowed p.1 p.2 s) (hrun : step p.1 s = .ok (a, t)) (hG : G t)
    (hrest : AllAllowed G allowed step ps t) : AllAllowed G allowed step (p :: ps) s := by
  refine ⟨ha, fun b u h => ?_⟩
  obtain ⟨rfl, rfl⟩ := Prod.mk.inj (Except.ok.inj (hrun.symm.trans h))
  exact ⟨hG, hrest⟩

/-- If an allowed step returns and is simulated, both lists of steps return the
same results. -/
theorem runAll_simulates {R : τ → σ → Prop} {G : σ → Prop} {allowed : ι → κ → σ → Prop}
    (hstep : ∀ i k r s, R r s → allowed i k s → ∃ a t, step i s = .ok (a, t) ∧
      (G t → ∃ u, step' k r = .ok (a, u) ∧ R u t))
    (ps : List (ι × κ)) {r : τ} {s : σ} (hr : R r s) (hf : AllAllowed G allowed step ps s) :
    ∃ as t u, runAll step (ps.map Prod.fst) s = .ok (as, t) ∧
      runAll step' (ps.map Prod.snd) r = .ok (as, u) ∧ R u t := by
  induction ps generalizing r s with
  | nil => exact ⟨[], s, r, rfl, rfl, hr⟩
  | cons p ps ih =>
    obtain ⟨ha, hrest⟩ := hf
    obtain ⟨a, s', hs, hsim⟩ := hstep p.1 p.2 r s hr ha
    obtain ⟨hG, hnext⟩ := hrest a s' hs
    obtain ⟨r', hr', hmid⟩ := hsim hG
    obtain ⟨as, t, u, ht, hu, hend⟩ := ih hmid hnext
    exact ⟨a :: as, t, u, runAll_cons hs ht, runAll_cons hr' hu, hend⟩

end Steps

end StateRefinement
