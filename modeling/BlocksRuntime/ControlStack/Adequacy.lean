import Mathlib.Logic.Basic

/-!
# Machines with a control stack

A recursive program can be run by a machine, which keeps the activations on a
stack and steps the one on top, or as a recursive function, which fails with
`outOfFuel` where its calls nest too deep.

* `Steps` counts the steps of the machine.
* `Agrees` relates one outcome of the function to the machine, with one rule
  for each way of composing programs.
* `Adequate` says that the function and the machine return, fault and run
  forever on the same inputs.  It follows from `Agrees` at every bound.
-/

namespace ControlStack

variable {φ σ ε : Type}

/-- `n` steps of the machine. -/
inductive Steps (step : φ → σ → Except ε (List φ × σ)) :
    Nat → List φ → σ → List φ → σ → Prop where
  | refl (fs : List φ) (s : σ) : Steps step 0 fs s fs s
  | head (n : Nat) (f : φ) (fs gs hs : List φ) (s t u : σ) (h : step f s = .ok (gs, t))
      (hrest : Steps step n (gs ++ fs) t hs u) : Steps step (n + 1) (f :: fs) s hs u

/-- The machine cannot go on: it has returned, or the activation on top
faults. -/
inductive Stopped (step : φ → σ → Except ε (List φ × σ)) : List φ → σ → Prop where
  | returned (s : σ) : Stopped step [] s
  | faulted (f : φ) (fs : List φ) (s : σ) (e : ε) (h : step f s = .error e) :
      Stopped step (f :: fs) s

section

variable {step : φ → σ → Except ε (List φ × σ)} {m n : Nat} {fs gs hs : List φ} {s t u : σ}

namespace Steps

theorem one {f : φ} (h : step f s = .ok (gs, t)) : Steps step 1 (f :: fs) s (gs ++ fs) t :=
  .head 0 f fs gs _ s t t h (.refl _ t)

theorem trans (h : Steps step m fs s gs t) (h' : Steps step n gs t hs u) :
    Steps step (m + n) fs s hs u := by
  induction h with
  | refl fs s => rwa [Nat.zero_add]
  | head k f fs gs _ s t _ hstep _ ih =>
    rw [Nat.add_right_comm]
    exact .head _ f fs gs hs s t u hstep (ih h')

/-- Activations further down do not matter. -/
theorem append (h : Steps step n fs s gs t) (rest : List φ) :
    Steps step n (fs ++ rest) s (gs ++ rest) t := by
  induction h with
  | refl fs s => exact .refl _ s
  | head n f fs gs hs s t u hstep _ ih =>
    rw [List.append_assoc] at ih
    exact .head n f (fs ++ rest) gs _ s t u hstep ih

/-- The first steps of many. -/
theorem take (h : Steps step n fs s hs u) (hm : m ≤ n) : ∃ gs t, Steps step m fs s gs t := by
  induction h generalizing m with
  | refl fs s =>
    obtain rfl : m = 0 := Nat.le_zero.1 hm
    exact ⟨fs, s, .refl fs s⟩
  | head n f fs gs hs s t u hstep _ ih =>
    cases m with
    | zero => exact ⟨f :: fs, s, .refl _ s⟩
    | succ m =>
      obtain ⟨gs', t', hrest⟩ := ih (Nat.le_of_succ_le_succ hm)
      exact ⟨gs', t', .head m f fs gs gs' s t t' hstep hrest⟩

theorem stopped_zero (h : Steps step n fs s gs t) (hs : Stopped step fs s) : n = 0 := by
  cases h with
  | refl => rfl
  | head n f fs gs hs s t u hstep hrest =>
    cases hs with
    | faulted _ _ _ e he =>
      rw [hstep] at he
      cases he

/-- The machine is deterministic. -/
theorem stopped_le (h : Steps step m fs s gs t) (hstop : Stopped step gs t)
    (h' : Steps step n fs s hs u) : n ≤ m := by
  induction h generalizing n with
  | refl fs s => exact Nat.le_of_eq (h'.stopped_zero hstop)
  | head m f fs gs _ s t _ hstep _ ih =>
    cases h' with
    | refl => exact Nat.zero_le _
    | head n _ _ gs' _ _ t' _ hstep' hrest' =>
      rw [hstep, Except.ok.injEq, Prod.mk.injEq] at hstep'
      obtain ⟨rfl, rfl⟩ := hstep'
      exact Nat.succ_le_succ (ih hstop hrest')

theorem unique (h : Steps step n fs s gs t) (h' : Steps step n fs s hs u) : gs = hs ∧ t = u := by
  induction h with
  | refl fs s =>
    cases h'
    exact ⟨rfl, rfl⟩
  | head n f fs gs _ s t _ hstep _ ih =>
    cases h' with
    | head _ _ _ gs' _ _ t' _ hstep' hrest' =>
      rw [hstep, Except.ok.injEq, Prod.mk.injEq] at hstep'
      obtain ⟨rfl, rfl⟩ := hstep'
      exact ih hrest'

/-- The machine stops in one way only. -/
theorem stopped_unique (h : Steps step m fs s gs t) (hstop : Stopped step gs t)
    (h' : Steps step n fs s hs u) (hstop' : Stopped step hs u) : gs = hs ∧ t = u := by
  obtain rfl : m = n := Nat.le_antisymm (h'.stopped_le hstop' h) (h.stopped_le hstop h')
  exact h.unique h'

end Steps

end

/-! ## One outcome -/

/-- The outcome `out` of a function with calls nested at most `n` deep, and the
machine that runs the same code from `fs`. -/
structure Agrees (step : φ → σ → Except ε (List φ × σ)) (outOfFuel : ε) (n : Nat) (fs : List φ)
    (s : σ) (out : Except ε (Unit × σ)) : Prop where
  /-- Where the function returns, the machine does. -/
  returns : ∀ t, out = .ok ((), t) → ∃ k, Steps step k fs s [] t
  /-- Where the function faults, the machine does. -/
  faults : ∀ e, e ≠ outOfFuel → out = .error e →
    ∃ k f gs t, Steps step k fs s (f :: gs) t ∧ step f t = .error e
  /-- Where the function runs out of fuel, the machine goes on for at least `n`
  steps. -/
  goes_on : out = .error outOfFuel → ∃ gs t, Steps step n fs s gs t

namespace Agrees

variable {step : φ → σ → Except ε (List φ × σ)} {outOfFuel : ε} {m n k : Nat} {f : φ}
  {fs gs : List φ} {s t : σ} {out : Except ε (Unit × σ)}

theorem mono (h : Agrees step outOfFuel n fs s out) (hm : m ≤ n) :
    Agrees step outOfFuel m fs s out where
  returns := h.returns
  faults := h.faults
  goes_on hout := by
    obtain ⟨gs, t, hsteps⟩ := h.goes_on hout
    exact hsteps.take hm

/-- Nothing is left to do. -/
theorem done (s : σ) : Agrees step outOfFuel n [] s (.ok ((), s)) where
  returns t h := by
    cases h
    exact ⟨0, .refl [] s⟩
  faults e _ h := by cases h
  goes_on h := by cases h

/-- No call may be nested any more. -/
theorem exhausted (fs : List φ) (s : σ) : Agrees step outOfFuel 0 fs s (.error outOfFuel) where
  returns t h := by cases h
  faults e hne h := by
    cases h
    exact absurd rfl hne
  goes_on _ := ⟨fs, s, .refl fs s⟩

/-- The activation on top faults. -/
theorem crash {e : ε} (h : step f s = .error e) (he : e ≠ outOfFuel) :
    Agrees step outOfFuel n (f :: fs) s (.error e) where
  returns t h := by cases h
  faults e' _ hout := by
    cases hout
    exact ⟨0, f, fs, s, .refl _ s, h⟩
  goes_on hout := by
    cases hout
    exact absurd rfl he

/-- The machine takes some steps first. -/
theorem after (hk : Steps step k fs s gs t) (h : Agrees step outOfFuel n gs t out) :
    Agrees step outOfFuel (k + n) fs s out where
  returns u hout := by
    obtain ⟨j, hj⟩ := h.returns u hout
    exact ⟨k + j, hk.trans hj⟩
  faults e he hout := by
    obtain ⟨j, g, hs, u, hj, hg⟩ := h.faults e he hout
    exact ⟨k + j, g, hs, u, hk.trans hj, hg⟩
  goes_on hout := by
    obtain ⟨hs, u, hsteps⟩ := h.goes_on hout
    exact ⟨hs, u, hk.trans hsteps⟩

theorem head (hstep : step f s = .ok (gs, t)) (h : Agrees step outOfFuel n (gs ++ fs) t out) :
    Agrees step outOfFuel (n + 1) (f :: fs) s out := by
  rw [Nat.add_comm]
  exact .after (Steps.one hstep) h

/-- A step that is not counted. -/
theorem next (hstep : step f s = .ok (gs, t)) (h : Agrees step outOfFuel n (gs ++ fs) t out) :
    Agrees step outOfFuel n (f :: fs) s out :=
  (h.head hstep).mono (Nat.le_succ n)

/-- One call after another. -/
theorem seq (gs : List φ) {x y : StateT σ (Except ε) Unit}
    (hx : Agrees step outOfFuel n fs s (x s))
    (hy : ∀ t, x s = .ok ((), t) → Agrees step outOfFuel n gs t (y t)) :
    Agrees step outOfFuel n (fs ++ gs) s ((x >>= fun _ => y) s) := by
  cases hout : x s with
  | ok out =>
    obtain ⟨⟨⟩, t⟩ := out
    obtain ⟨k, hk⟩ := hx.returns t hout
    have hbind : (x >>= fun _ => y) s = y t := by
      simp only [bind, StateT.bind, Except.bind, hout]
    rw [hbind]
    exact ((hy t hout).after (hk.append gs)).mono (Nat.le_add_left n k)
  | error e =>
    have hbind : (x >>= fun _ => y) s = .error e := by
      simp only [bind, StateT.bind, Except.bind, hout]
    rw [hbind]
    rw [hout] at hx
    exact {
      returns := fun t h => by cases h
      faults := fun e' he h => by
        obtain ⟨k, f, gs', t, hk, hf⟩ := hx.faults e' he h
        exact ⟨k, f, gs' ++ gs, t, hk.append gs, hf⟩
      goes_on := fun h => by
        obtain ⟨gs', t, hsteps⟩ := hx.goes_on h
        exact ⟨gs' ++ gs, t, hsteps.append gs⟩ }

end Agrees

/-! ## All bounds -/

/-- A function with a bound on its depth, and the machine that runs the same
code. -/
structure Adequate (step : φ → σ → Except ε (List φ × σ)) (outOfFuel : ε)
    (x : Nat → StateT σ (Except ε) Unit) (fs : List φ) : Prop where
  returns : ∀ s t, (∃ n, x n s = .ok ((), t)) ↔ ∃ k, Steps step k fs s [] t
  faults : ∀ s e, e ≠ outOfFuel → ((∃ n, x n s = .error e) ↔
    ∃ k f gs t, Steps step k fs s (f :: gs) t ∧ step f t = .error e)
  diverges : ∀ s, (∀ n, x n s = .error outOfFuel) ↔ ∀ k, ∃ gs t, Steps step k fs s gs t

section

variable {step : φ → σ → Except ε (List φ × σ)} {outOfFuel : ε}
  {x : Nat → StateT σ (Except ε) Unit} {fs gs : List φ} {s t : σ} {k n : Nat}

/-- What the function does within a bound that the machine does not use up. -/
theorem outcome_of_stopped (h : Agrees step outOfFuel n fs s (x n s))
    (hsteps : Steps step k fs s gs t) (hstop : Stopped step gs t) (hk : k < n) :
    (gs = [] ∧ x n s = .ok ((), t)) ∨
      ∃ f gs' e, gs = f :: gs' ∧ step f t = .error e ∧ e ≠ outOfFuel ∧ x n s = .error e := by
  cases hout : x n s with
  | ok out =>
    obtain ⟨⟨⟩, t'⟩ := out
    obtain ⟨j, hj⟩ := h.returns t' hout
    obtain ⟨rfl, rfl⟩ := hsteps.stopped_unique hstop hj (.returned t')
    exact Or.inl ⟨rfl, rfl⟩
  | error e =>
    by_cases he : e = outOfFuel
    · subst he
      obtain ⟨gs', t', hgo⟩ := h.goes_on hout
      exact absurd (hsteps.stopped_le hstop hgo) (Nat.not_le.2 hk)
    · obtain ⟨j, f, gs', t', hj, hf⟩ := h.faults e he hout
      obtain ⟨rfl, rfl⟩ := hsteps.stopped_unique hstop hj (.faulted f gs' t' e hf)
      exact Or.inr ⟨f, gs', e, rfl, hf, he, rfl⟩

/-- The function returns as soon as its bound exceeds the steps of the
machine. -/
theorem returns_of_steps (h : ∀ n s, Agrees step outOfFuel n fs s (x n s))
    (hsteps : Steps step k fs s [] t) (hk : k < n) : x n s = .ok ((), t) := by
  rcases outcome_of_stopped (h n s) hsteps (.returned t) hk with ⟨_, hout⟩ | ⟨_, _, _, hnil, _⟩
  · exact hout
  · cases hnil

/-- Agreement at every bound is adequacy. -/
theorem adequate_of_agrees (h : ∀ n s, Agrees step outOfFuel n fs s (x n s)) :
    Adequate step outOfFuel x fs where
  returns s t := by
    constructor
    · rintro ⟨n, hn⟩
      exact (h n s).returns t hn
    · rintro ⟨k, hk⟩
      exact ⟨k + 1, returns_of_steps h hk (Nat.lt_succ_self k)⟩
  faults s e he := by
    constructor
    · rintro ⟨n, hn⟩
      exact (h n s).faults e he hn
    · rintro ⟨k, f, gs, t, hk, hf⟩
      rcases outcome_of_stopped (h (k + 1) s) hk (.faulted f gs t e hf) (Nat.lt_succ_self k) with
        ⟨hnil, _⟩ | ⟨f', gs', e', heq, hf', _, hout⟩
      · cases hnil
      · cases heq
        rw [hf, Except.error.injEq] at hf'
        subst hf'
        exact ⟨k + 1, hout⟩
  diverges s := by
    refine ⟨fun hall k => (h k s).goes_on (hall k), fun hall n => ?_⟩
    -- a machine that stopped would have no steps beyond
    have hnot : ∀ k gs t, Steps step k fs s gs t → ¬Stopped step gs t := by
      intro k gs t hk hstop
      obtain ⟨gs', t', hgo⟩ := hall (k + 1)
      exact absurd (hk.stopped_le hstop hgo) (Nat.not_succ_le_self k)
    cases hout : x n s with
    | ok out =>
      obtain ⟨⟨⟩, t⟩ := out
      obtain ⟨k, hk⟩ := (h n s).returns t hout
      exact absurd (.returned t) (hnot k [] t hk)
    | error e =>
      by_cases he : e = outOfFuel
      · rw [he]
      · obtain ⟨k, f, gs, t, hk, hf⟩ := (h n s).faults e he hout
        exact absurd (.faulted f gs t e hf) (hnot k (f :: gs) t hk)

end

end ControlStack
