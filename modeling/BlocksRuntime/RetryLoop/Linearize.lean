import BlocksRuntime.RetryLoop.Basic
import Mathlib.Data.List.Basic
import Mathlib.Logic.Function.Basic

/-!
# Retry loops under interference

Any number of threads, each with a list of calls of retry loops on one shared
word.

* `Shared.step` is one atomic step of one thread: a read of the word, or a
  compare-and-swap.  A swap fails exactly when the word differs from the value
  read.
* A call is decided by the read at which its loop exits, or by the swap that
  succeeds.  `Shared.done` lists the completed calls in the order of their
  deciding steps.
* `Shared.linear_run` says that every schedule comes to the same results and
  the same word as the completed calls one after another in that order.
* `sequential_refines` carries this over to an abstract machine.
-/

namespace RetryLoop

variable {ι κ σ ρ : Type}

/-! ## One call after another -/

/-- The results of a list of operations, and the state after them. -/
def sequential (f : κ → σ → ρ × σ) : σ → List κ → List ρ × σ
  | w, [] => ([], w)
  | w, c :: cs =>
    let rest := sequential f (f c w).2 cs
    ((f c w).1 :: rest.1, rest.2)

section Sequential

variable {f : κ → σ → ρ × σ}

theorem sequential_append (w : σ) (cs ds : List κ) :
    sequential f w (cs ++ ds) =
      ((sequential f w cs).1 ++ (sequential f (sequential f w cs).2 ds).1,
        (sequential f (sequential f w cs).2 ds).2) := by
  induction cs generalizing w with
  | nil => rfl
  | cons c cs ih => simp only [List.cons_append, sequential, ih]

theorem sequential_concat (w : σ) (cs : List κ) (c : κ) :
    sequential f w (cs ++ [c]) =
      ((sequential f w cs).1 ++ [(f c (sequential f w cs).2).1],
        (f c (sequential f w cs).2).2) := by
  rw [sequential_append]
  rfl

/-- What every operation preserves, a list of operations preserves. -/
theorem sequential_invariant {P : σ → Prop} (hstep : ∀ c w, P w → P (f c w).2) {w : σ}
    (hw : P w) (cs : List κ) : P (sequential f w cs).2 := by
  induction cs generalizing w with
  | nil => exact hw
  | cons c cs ih => exact ih (hstep c w hw)

/-- Related machines have the same results and stay related. -/
theorem sequential_refines {τ : Type} {g : κ → τ → ρ × τ} {R : σ → τ → Prop}
    (hstep : ∀ c w a, R w a → (f c w).1 = (g c a).1 ∧ R (f c w).2 (g c a).2) {w : σ} {a : τ}
    (hw : R w a) (cs : List κ) :
    (sequential f w cs).1 = (sequential g a cs).1 ∧
      R (sequential f w cs).2 (sequential g a cs).2 := by
  induction cs generalizing w a with
  | nil => exact ⟨rfl, hw⟩
  | cons c cs ih =>
    obtain ⟨hr, hnext⟩ := hstep c w a hw
    obtain ⟨hrs, hlast⟩ := ih hnext
    exact ⟨by simp only [sequential, hr, hrs], hlast⟩

end Sequential

/-! ## Threads -/

/-- The local variables of a loop between its read and its swap. -/
structure Swap (σ ρ : Type) where
  old : σ
  new : σ
  result : ρ

/-- A thread with a list of calls to make. -/
structure Thread (κ σ ρ : Type) where
  /-- The calls that are not completed, the current one first. -/
  calls : List κ
  /-- The swap that comes next, if the current call is past its read. -/
  swap : Option (Swap σ ρ)
  /-- The results of the completed calls. -/
  returned : List ρ

/-- A completed call. -/
structure Completed (ι κ ρ : Type) where
  thread : ι
  call : κ
  result : ρ

/-- The word that the threads share. -/
structure Shared (ι κ σ ρ : Type) where
  word : σ
  threads : ι → Thread κ σ ρ
  /-- The completed calls, in the order of their deciding steps. -/
  done : List (Completed ι κ ρ)

namespace Shared

variable [DecidableEq ι]

def start (w : σ) (calls : ι → List κ) : Shared ι κ σ ρ := ⟨w, fun i => ⟨calls i, none, []⟩, []⟩

/-- The thread `i` completes its current call. -/
def complete (s : Shared ι κ σ ρ) (i : ι) (call : κ) (rest : List κ) (w : σ) (result : ρ) :
    Shared ι κ σ ρ where
  word := w
  threads := Function.update s.threads i ⟨rest, none, (s.threads i).returned ++ [result]⟩
  done := s.done ++ [⟨i, call, result⟩]

/-- The thread `i` goes on with its current call. -/
def proceed (s : Shared ι κ σ ρ) (i : ι) (swap : Option (Swap σ ρ)) : Shared ι κ σ ρ :=
  { s with threads := Function.update s.threads i { s.threads i with swap := swap } }

/-- The next atomic step of the thread `i`. -/
def step [DecidableEq σ] (loop : κ → σ → Attempt σ ρ) (s : Shared ι κ σ ρ) (i : ι) :
    Shared ι κ σ ρ :=
  match (s.threads i).calls with
  | [] => s
  | call :: rest =>
    match (s.threads i).swap with
    | none =>
      match loop call s.word with
      | .exit result => s.complete i call rest s.word result
      | .cas new result => s.proceed i (some ⟨s.word, new, result⟩)
    | some a =>
      if s.word = a.old then s.complete i call rest a.new a.result
      else s.proceed i none

/-- The threads take steps in the order of the schedule. -/
def run [DecidableEq σ] (loop : κ → σ → Attempt σ ρ) (s : Shared ι κ σ ρ)
    (schedule : List ι) : Shared ι κ σ ρ :=
  schedule.foldl (step loop) s

/-- The completed calls of the thread `i`. -/
def doneBy (s : Shared ι κ σ ρ) (i : ι) : List (Completed ι κ ρ) :=
  s.done.filter fun c => c.thread = i

variable {loop : κ → σ → Attempt σ ρ} {s : Shared ι κ σ ρ} {w : σ} {calls : ι → List κ}

/-! ## The invariant -/

/-- The word is the one after the completed calls, and so are the results. -/
structure Linear (loop : κ → σ → Attempt σ ρ) (w : σ) (calls : ι → List κ)
    (s : Shared ι κ σ ρ) : Prop where
  replay : sequential (fun c v => (loop c v).run v) w (s.done.map Completed.call) =
    (s.done.map Completed.result, s.word)
  /-- A pending swap is what the loop decided from the value it read. -/
  swap : ∀ i a, (s.threads i).swap = some a →
    ∃ call rest, (s.threads i).calls = call :: rest ∧ loop call a.old = .cas a.new a.result
  returned : ∀ i, (s.threads i).returned = (s.doneBy i).map Completed.result
  program : ∀ i, (s.doneBy i).map Completed.call ++ (s.threads i).calls = calls i

theorem linear_start (loop : κ → σ → Attempt σ ρ) (w : σ) (calls : ι → List κ) :
    Linear loop w calls (start w calls) where
  replay := rfl
  swap i a h := by cases h
  returned _ := rfl
  program _ := rfl

/-- A call is decided by a step that finds the word as the loop saw it. -/
theorem Linear.complete (h : Linear loop w calls s) {i : ι} {call : κ} {rest : List κ}
    (hc : (s.threads i).calls = call :: rest) {new : σ} {result : ρ}
    (hrun : (loop call s.word).run s.word = (result, new)) :
    Linear loop w calls (s.complete i call rest new result) where
  replay := by
    show sequential _ w ((s.done ++ [_]).map Completed.call) = _
    rw [List.map_append, List.map_singleton, sequential_concat, h.replay]
    simp only [hrun, Shared.complete, List.map_append, List.map_singleton]
  swap j a hj := by
    by_cases hij : j = i
    · subst hij
      simp only [Shared.complete, Function.update_self] at hj
      cases hj
    · simp only [Shared.complete, Function.update_of_ne hij] at hj ⊢
      exact h.swap j a hj
  returned j := by
    by_cases hij : j = i
    · subst hij
      simp only [Shared.complete, Function.update_self, h.returned, doneBy, List.filter_append,
        List.map_append]
      simp
    · have hne : i ≠ j := fun he => hij he.symm
      simp only [Shared.complete, Function.update_of_ne hij, h.returned, doneBy,
        List.filter_append]
      simp [hne]
  program j := by
    have hj := h.program j
    by_cases hij : j = i
    · subst hij
      rw [hc] at hj
      simp only [Shared.complete, Function.update_self, doneBy, List.filter_append, List.map_append]
      simpa [doneBy] using hj
    · have hne : i ≠ j := fun he => hij he.symm
      simp only [Shared.complete, Function.update_of_ne hij, doneBy, List.filter_append]
      simpa [doneBy, hne] using hj

theorem Linear.proceed (h : Linear loop w calls s) {i : ι} {swap : Option (Swap σ ρ)}
    (hswap : ∀ a, swap = some a →
      ∃ call rest, (s.threads i).calls = call :: rest ∧ loop call a.old = .cas a.new a.result) :
    Linear loop w calls (s.proceed i swap) where
  replay := h.replay
  swap j a hj := by
    by_cases hij : j = i
    · subst hij
      simp only [Shared.proceed, Function.update_self] at hj ⊢
      exact hswap a hj
    · simp only [Shared.proceed, Function.update_of_ne hij] at hj ⊢
      exact h.swap j a hj
  returned j := by
    rw [show (s.proceed i swap).doneBy j = s.doneBy j from rfl, ← h.returned j]
    by_cases hij : j = i
    · subst hij
      simp only [Shared.proceed, Function.update_self]
    · simp only [Shared.proceed, Function.update_of_ne hij]
  program j := by
    rw [show (s.proceed i swap).doneBy j = s.doneBy j from rfl, ← h.program j]
    by_cases hij : j = i
    · subst hij
      simp only [Shared.proceed, Function.update_self]
    · simp only [Shared.proceed, Function.update_of_ne hij]

variable [DecidableEq σ]

/-- An atomic step keeps the invariant. -/
theorem Linear.step (h : Linear loop w calls s) (i : ι) : Linear loop w calls (s.step loop i) := by
  unfold Shared.step
  cases hc : (s.threads i).calls with
  | nil => exact h
  | cons call rest =>
    cases ha : (s.threads i).swap with
    | none =>
      -- The read.
      simp only
      cases hd : loop call s.word with
      | exit result => exact h.complete hc (by rw [hd, Attempt.run_exit])
      | cas new result =>
        apply h.proceed
        rintro a ⟨⟩
        exact ⟨call, rest, hc, hd⟩
    | some a =>
      -- The swap.
      simp only
      split
      · next hw =>
        obtain ⟨call', rest', hc', hd⟩ := h.swap i a ha
        rw [hc, List.cons.injEq] at hc'
        obtain ⟨rfl, rfl⟩ := hc'
        exact h.complete hc (by rw [hw, hd, Attempt.run_cas])
      · exact h.proceed fun a ha => by cases ha

/-- Every schedule comes to the completed calls one after another. -/
theorem linear_run (loop : κ → σ → Attempt σ ρ) (w : σ) (calls : ι → List κ)
    (schedule : List ι) : Linear loop w calls ((start w calls).run loop schedule) := by
  have hrun : ∀ (l : List ι) (s : Shared ι κ σ ρ), Linear loop w calls s →
      Linear loop w calls (s.run loop l) := by
    intro l
    induction l with
    | nil => exact fun s h => h
    | cons i l ih => exact fun s h => ih _ (h.step i)
  exact hrun schedule _ (linear_start loop w calls)

theorem run_append (s : Shared ι κ σ ρ) (l m : List ι) :
    s.run loop (l ++ m) = (s.run loop l).run loop m := List.foldl_append

/-- An atomic step decides one call at most. -/
theorem done_step (loop : κ → σ → Attempt σ ρ) (s : Shared ι κ σ ρ) (i : ι) :
    (s.step loop i).done = s.done ∨ ∃ c, (s.step loop i).done = s.done ++ [c] := by
  unfold Shared.step
  split
  · exact Or.inl rfl
  · split
    · split
      · exact Or.inr ⟨_, rfl⟩
      · exact Or.inl rfl
    · split
      · exact Or.inr ⟨_, rfl⟩
      · exact Or.inl rfl

/-- Completed calls stay completed. -/
theorem done_run (loop : κ → σ → Attempt σ ρ) (s : Shared ι κ σ ρ) (l : List ι) :
    s.done <+: (s.run loop l).done := by
  induction l generalizing s with
  | nil => exact List.prefix_rfl
  | cons i l ih =>
    refine List.IsPrefix.trans ?_ (ih (s.step loop i))
    rcases done_step loop s i with h | ⟨c, h⟩ <;> simp [h]

/-- At some point of the schedule just the first calls were completed. -/
theorem exists_take_done (loop : κ → σ → Attempt σ ρ) (s : Shared ι κ σ ρ) (l : List ι)
    {p : List (Completed ι κ ρ)} (hs : s.done <+: p) (hp : p <+: (s.run loop l).done) :
    ∃ k, (s.run loop (l.take k)).done = p := by
  induction l generalizing s with
  | nil => exact ⟨0, hs.eq_of_length_le hp.length_le⟩
  | cons i l ih =>
    by_cases heq : s.done = p
    · exact ⟨0, heq⟩
    · have hstep : (s.step loop i).done <+: p := by
        rcases done_step loop s i with h | ⟨c, h⟩
        · rw [h]
          exact hs
        · -- The next call of `p` is the one that this step decides.
          have hall : (s.step loop i).done <+: (s.run loop (i :: l)).done := done_run loop _ l
          refine List.prefix_of_prefix_length_le hall hp ?_
          have hlt : s.done.length < p.length := by
            have hle := hs.length_le
            have hne : s.done.length ≠ p.length := fun he => heq (hs.eq_of_length he)
            omega
          rw [h, List.length_append, List.length_singleton]
          omega
      obtain ⟨k, hk⟩ := ih (s.step loop i) hstep hp
      exact ⟨k + 1, hk⟩

end Shared

end RetryLoop
