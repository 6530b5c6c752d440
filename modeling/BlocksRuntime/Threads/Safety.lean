import BlocksRuntime.Ownership.Survivors
import BlocksRuntime.Threads.FrameSteps
import BlocksRuntime.Threads.Sharing
import Mathlib.Algebra.BigOperators.Group.Finset.Sigma

/-!
# Safety under every interleaving

Whatever the threads do in whatever order, the memory stays consistent.

* `Inv` is the invariant of the machine.  `Inv.advance`, `Inv.call` and
  `Inv.give` are the step lemmas, and `Inv.run` is the run lemma.
* `Safe` is what the invariant means: no thread faults, what has happened to a
  record is a beginning of one deallocation, and the counts are right.
* `threads_safe` is safety, and `threads_no_garbage` says that at any moment
  every live record has a reason to be live.
-/

namespace BlocksRuntime.Threads

open Ownership RetryLoop

/-! ## What a step keeps -/

section

variable {s₀ s t : Mem} {f : Frame} {gs : List Frame} {gained v : Multiset Ref} {d : Deed} {r : Ref}

/-- A deed keeps the counting discipline. -/
theorem Change.sound (hc : Change s₀ s f gs gained t d)
    (hs : Sane s₀ s) (h : Sound latched (External s₀) (sharedGraph s) (f.refs s₀ + v))
    (hb : ∀ r ∈ f.borrowed s₀, Target s₀ s r) :
    Sound latched (External s₀) (sharedGraph t) (stackRefs s₀ gs + (gained + v)) := by
  obtain ⟨w, hrefs, hgs⟩ := hc.refs
  rw [hrefs] at h
  rw [hgs, hc.gained, hc.graph]
  cases d with
  | quiet => simpa [Deed.spent, Deed.pending, Deed.gained, Deed.graph] using h
  | drop r =>
    rw [Deed.spent, add_assoc, Multiset.singleton_add] at h
    simpa [Deed.pending, Deed.gained, Deed.graph, add_assoc] using h.drop
  | acquire r =>
    have hkeep : Sound latched (External s₀) (sharedGraph s) (0 + w + v) := h
    rw [zero_add] at hkeep
    have htake : Sound latched (External s₀) ((sharedGraph s).acquire latched r)
        (r ::ₘ (w + v)) := by
      rcases hb r (hc.borrowed r (Multiset.mem_singleton_self r)) with hn | hext
      · exact hkeep.acquire hn
      · rw [acquire_external hs hext]
        exact hkeep.takeOuter hext
    rw [← Multiset.singleton_add] at htake
    simpa [Deed.pending, Deed.gained, Deed.graph, add_left_comm] using htake

theorem Change.positive (hc : Change s₀ s f gs gained t d)
    (h : Positive (sharedGraph s)) : Positive (sharedGraph t) := by
  rw [hc.graph]
  cases d with
  | quiet => exact h
  | drop r => exact Graph.drop_positive r h
  | acquire r => exact Graph.acquire_positive r h

/-- The records that a step tears down are dying afterwards. -/
theorem Change.condemned (hc : Change s₀ s f gs gained t d) (hr : r ∈ stackDying gs) :
    ∃ x, recordAt t r = some x ∧ x.Dying := by
  obtain ⟨g, hg, hr⟩ := (mem_stackDying gs).1 hr
  exact ((hc.ok g hg).1.condemned r hr).1

/-- A record whose teardown ends with a step is gone. -/
theorem Change.gone (hc : Change s₀ s f gs gained t d) (hf : r ∈ f.dying)
    (hgs : r ∉ stackDying gs) : Gone s₀ t r := by
  cases hc.teardown with
  | same h => exact absurd (h ▸ hf) hgs
  | start _ _ _ _ h _ =>
    rw [h] at hf
    exact absurd hf (Multiset.notMem_zero r)
  | finish q h _ hgone =>
    rw [h, Multiset.mem_singleton] at hf
    exact hf ▸ hgone

end

/-! ## The invariant -/

variable {ι : Type} [DecidableEq ι] [Fintype ι]

/-- The references that the threads hold or are about to give up. -/
def Machine.refs (s₀ : Mem) (m : Machine ι) : Multiset Ref := ∑ i, (m.workers i).refs s₀

/-- The records in teardown. -/
def Machine.dying (m : Machine ι) : Multiset Ref := ∑ i, stackDying (m.workers i).stack

/-- The invariant of the machine, from the memory `s₀` on. -/
structure Inv (s₀ : Mem) (m : Machine ι) : Prop where
  sane : Sane s₀ m.mem
  sound : Sound latched (External s₀) (sharedGraph m.mem) (m.refs s₀)
  frames : ∀ i, ∀ f ∈ (m.workers i).stack, f.Ok s₀ m.mem
  borrowed : ∀ i, ∀ f ∈ (m.workers i).stack, ∀ r ∈ f.borrowed s₀, r ∈ (m.workers i).held
  /-- A record is torn down by one activation only. -/
  once : m.dying.Nodup
  dying : ∀ r x, recordAt m.mem r = some x → x.Dying → r ∈ m.dying
  gone : ∀ r, recordAt s₀ r ≠ none → recordAt m.mem r = none → Gone s₀ m.mem r

section

variable {s₀ : Mem} {m : Machine ι} {i : ι} {t : Mem} {x : Worker} {f : Frame}
  {fs gs : List Frame} {gained : Multiset Ref} {d : Deed} {r : Ref}

/-! ## One thread and the others -/

/-- A sum over the threads, with one thread set apart. -/
theorem sum_workers {β : Type} [AddCommMonoid β] (F : Worker → β) (m : Machine ι) (i : ι) :
    ∑ j, F (m.workers j) = F (m.workers i) + ∑ j ∈ Finset.univ.erase i, F (m.workers j) :=
  (Finset.add_sum_erase _ _ (Finset.mem_univ i)).symm

theorem sum_put {β : Type} [AddCommMonoid β] (F : Worker → β) (m : Machine ι) (i : ι) (t : Mem)
    (x : Worker) :
    ∑ j, F ((m.put i t x).workers j) = F x + ∑ j ∈ Finset.univ.erase i, F (m.workers j) := by
  rw [sum_workers F (m.put i t x) i]
  congr 1
  · rw [Machine.put_self]
  · refine Finset.sum_congr rfl fun j hj => ?_
    rw [Machine.put_ne _ _ _ (Finset.ne_of_mem_erase hj)]

theorem sum_put_add {β : Type} [AddCommMonoid β] (F : Worker → β) (m : Machine ι) (i : ι) (t : Mem)
    (x : Worker) :
    ∑ j, F ((m.put i t x).workers j) + F (m.workers i) = ∑ j, F (m.workers j) + F x := by
  rw [sum_put, sum_workers F m i, add_right_comm, add_comm (F x), add_right_comm]

/-- A sum over the threads after a handover. -/
theorem sum_give (F : Worker → Multiset Ref) (m : Machine ι) {i j : ι} (hij : i ≠ j)
    {x y : Worker} (h : F y + F x = F (m.workers j) + F (m.workers i)) :
    ∑ k, F (((m.put i t x).put j t y).workers k) = ∑ k, F (m.workers k) := by
  have h₁ := sum_put_add F m i t x
  have h₂ := sum_put_add F (m.put i t x) j t y
  rw [m.put_ne t x hij.symm] at h₂
  ext r
  have h₁r := congrArg (Multiset.count r) h₁
  have h₂r := congrArg (Multiset.count r) h₂
  have hr := congrArg (Multiset.count r) h
  simp only [Multiset.count_add] at h₁r h₂r hr
  omega

/-- The other records in teardown while the thread `i` works on `f`. -/
def Machine.otherDying (m : Machine ι) (i : ι) (fs : List Frame) : Multiset Ref :=
  stackDying fs + ∑ j ∈ Finset.univ.erase i, stackDying (m.workers j).stack

theorem Machine.dying_split (hstack : (m.workers i).stack = f :: fs) :
    m.dying = f.dying + m.otherDying i fs := by
  rw [Machine.dying, sum_workers (fun x => stackDying x.stack) m i, hstack, stackDying_cons,
    add_assoc, Machine.otherDying]

theorem Machine.dying_put : (m.put i t ⟨gs ++ fs, gained⟩).dying =
    stackDying gs + m.otherDying i fs := by
  rw [Machine.dying, sum_put (fun x => stackDying x.stack) m i, stackDying_append, add_assoc,
    Machine.otherDying]

/-- The other references while the thread `i` works on `f`. -/
def Machine.otherRefs (m : Machine ι) (s₀ : Mem) (i : ι) (fs : List Frame) : Multiset Ref :=
  stackRefs s₀ fs + (m.workers i).held + ∑ j ∈ Finset.univ.erase i, (m.workers j).refs s₀

theorem Machine.refs_split (hstack : (m.workers i).stack = f :: fs) :
    m.refs s₀ = f.refs s₀ + m.otherRefs s₀ i fs := by
  rw [Machine.refs, sum_workers (Worker.refs s₀) m i, Worker.refs, hstack, stackRefs_cons,
    Machine.otherRefs]
  simp only [add_assoc]

theorem Machine.refs_put : (m.put i t ⟨gs ++ fs, (m.workers i).held + gained⟩).refs s₀ =
    stackRefs s₀ gs + (gained + m.otherRefs s₀ i fs) := by
  rw [Machine.refs, sum_put (Worker.refs s₀) m i, Worker.refs, stackRefs_append,
    Machine.otherRefs]
  simp only [add_assoc, add_left_comm]

theorem mem_refs (hr : r ∈ (m.workers i).refs s₀) : r ∈ m.refs s₀ := by
  rw [Machine.refs, sum_workers (Worker.refs s₀) m i]
  exact Multiset.mem_add.2 (Or.inl hr)

omit [DecidableEq ι] in
/-- A reference of a thread is counted. -/
theorem Inv.target (h : Inv s₀ m) (hr : r ∈ m.refs s₀) : Target s₀ m.mem r :=
  h.sound.closed r (Graph.refs_pos_of_mem hr)

theorem Inv.target_held (h : Inv s₀ m) (hr : r ∈ (m.workers i).held) : Target s₀ m.mem r :=
  h.target (mem_refs (i := i) (Multiset.mem_add.2 (Or.inr hr)))

/-- The next step of a thread. -/
theorem Inv.goes (h : Inv s₀ m) (hstack : (m.workers i).stack = f :: fs) : f.Goes s₀ m.mem := by
  have hf : f ∈ (m.workers i).stack := hstack ▸ List.mem_cons_self
  refine Frame.step_change h.sane (h.frames i f hf) (fun r hr => h.target ?_)
    fun r hr => h.target_held (h.borrowed i f hf r hr)
  rw [Machine.refs_split hstack]
  exact Multiset.mem_add.2 (Or.inl hr)

/-! ## The other activations -/

/-- Another activation than the one that takes the step. -/
def Machine.Other (m : Machine ι) (i : ι) (fs : List Frame) (g : Frame) : Prop :=
  g ∈ fs ∨ ∃ j, j ≠ i ∧ g ∈ (m.workers j).stack

theorem Machine.Other.mem_dying {g : Frame} (hg : m.Other i fs g) (hr : r ∈ g.dying) :
    r ∈ m.otherDying i fs := by
  rcases hg with hg | ⟨j, hj, hg⟩
  · exact Multiset.mem_add.2 (Or.inl ((mem_stackDying fs).2 ⟨g, hg, hr⟩))
  · have hj' := Finset.mem_erase.2 ⟨hj, Finset.mem_univ j⟩
    exact Multiset.mem_add.2
      (Or.inr (Multiset.mem_sum.2 ⟨j, hj', (mem_stackDying _).2 ⟨g, hg, hr⟩⟩))

theorem Machine.mem_otherDying (hr : r ∈ m.otherDying i fs) :
    ∃ g, m.Other i fs g ∧ r ∈ g.dying := by
  rcases Multiset.mem_add.1 hr with hr | hr
  · obtain ⟨g, hg, hr⟩ := (mem_stackDying fs).1 hr
    exact ⟨g, Or.inl hg, hr⟩
  · obtain ⟨j, hj, hr⟩ := Multiset.mem_sum.1 hr
    obtain ⟨g, hg, hr⟩ := (mem_stackDying _).1 hr
    exact ⟨g, Or.inr ⟨j, (Finset.mem_erase.1 hj).1, hg⟩, hr⟩

omit [DecidableEq ι] in
theorem Inv.other_ok {g : Frame} (h : Inv s₀ m) (hstack : (m.workers i).stack = f :: fs)
    (hg : m.Other i fs g) : g.Ok s₀ m.mem := by
  rcases hg with hg | ⟨j, _, hg⟩
  · exact h.frames i g (hstack ▸ List.mem_cons_of_mem f hg)
  · exact h.frames j g hg

theorem Inv.other_dying (h : Inv s₀ m) (hstack : (m.workers i).stack = f :: fs)
    (hr : r ∈ m.otherDying i fs) : ∃ x, recordAt m.mem r = some x ∧ x.Dying := by
  obtain ⟨g, hg, hr⟩ := Machine.mem_otherDying hr
  exact ((h.other_ok hstack hg).condemned r hr).1

/-- A step does not touch the records that others tear down. -/
theorem Inv.other_apart (h : Inv s₀ m) (hstack : (m.workers i).stack = f :: fs)
    (hc : Change s₀ m.mem f gs gained t d) (hr : r ∈ m.otherDying i fs) :
    r ∉ f.dying ∧ r ∉ stackDying gs := by
  have honce := h.once
  rw [Machine.dying_split hstack, Multiset.nodup_add] at honce
  have hf : r ∉ f.dying := fun hf => Multiset.disjoint_left.1 honce.2.2 hf hr
  refine ⟨hf, fun hgs => ?_⟩
  cases hc.teardown with
  | same hsame => exact hf (hsame ▸ hgs)
  | start q x hx hl _ hq =>
    rw [hq, Multiset.mem_singleton] at hgs
    subst hgs
    obtain ⟨y, hy, hd⟩ := h.other_dying hstack hr
    obtain rfl : x = y := Option.some.inj (hx.symm.trans hy)
    exact hl.not_dying hd
  | finish _ _ hzero _ =>
    rw [hzero] at hgs
    exact Multiset.notMem_zero r hgs

theorem Inv.other_change {g : Frame} (h : Inv s₀ m) (hstack : (m.workers i).stack = f :: fs)
    (hc : Change s₀ m.mem f gs gained t d) (hg : m.Other i fs g) : g.Ok s₀ t where
  static := (h.other_ok hstack hg).static
  condemned r hr := by
    obtain ⟨hf, hgs⟩ := h.other_apart hstack hc (hg.mem_dying hr)
    have hsame := hc.record r hf hgs
    obtain ⟨⟨x, hx, hd⟩, p, hp, hh⟩ := (h.other_ok hstack hg).condemned r hr
    obtain ⟨y, hy, hiff⟩ := hsame.some x hx
    refine ⟨⟨y, hy, hiff.2 hd⟩, p, hp, ?_⟩
    rw [hsame.events, hh]
    rintro o rfl
    cases hx

/-! ## The step lemmas -/

omit [DecidableEq ι] in
theorem Inv.sane_change (h : Inv s₀ m) (hc : Change s₀ m.mem f gs gained t d) : Sane s₀ t where
  rep := h.sane.rep
  fades := h.sane.fades.trans hc.fades
  positive := hc.positive h.sane.positive
  unhurt r y hy hnot := by
    have hgs : r ∉ stackDying gs := fun hgs => by
      obtain ⟨z, hz, hd⟩ := hc.condemned hgs
      obtain rfl : y = z := Option.some.inj (hy.symm.trans hz)
      exact hnot hd
    have hf : r ∉ f.dying := fun hf => by
      rw [(hc.gone hf hgs).1] at hy
      cases hy
    have hsame := hc.record r hf hgs
    cases hx : recordAt m.mem r with
    | none =>
      rw [hsame.none hx] at hy
      cases hy
    | some x =>
      obtain ⟨z, hz, hiff⟩ := hsame.some x hx
      obtain rfl : y = z := Option.some.inj (hy.symm.trans hz)
      rw [hsame.events, h.sane.unhurt r x hx fun hd => hnot (hiff.2 hd)]
      rintro o rfl
      cases hx

/-- A thread takes a step. -/
theorem Inv.advance (h : Inv s₀ m) (hstack : (m.workers i).stack = f :: fs)
    (hc : Change s₀ m.mem f gs gained t d) :
    Inv s₀ (m.put i t ⟨gs ++ fs, (m.workers i).held + gained⟩) where
  sane := h.sane_change hc
  sound := by
    have hsound := h.sound
    rw [Machine.refs_split hstack] at hsound
    rw [Machine.refs_put]
    exact hc.sound h.sane hsound fun r hr =>
      h.target_held (h.borrowed i f (hstack ▸ List.mem_cons_self) r hr)
  frames j g hg := by
    by_cases hj : j = i
    · subst hj
      simp only [Machine.put_self, List.mem_append] at hg
      rcases hg with hg | hg
      · exact (hc.ok g hg).1
      · exact h.other_change hstack hc (Or.inl hg)
    · rw [Machine.put_ne _ _ _ hj] at hg
      exact h.other_change hstack hc (Or.inr ⟨j, hj, hg⟩)
  borrowed j g hg r hr := by
    by_cases hj : j = i
    · subst hj
      simp only [Machine.put_self, List.mem_append] at hg ⊢
      refine Multiset.mem_add.2 (Or.inl ?_)
      rcases hg with hg | hg
      · exact h.borrowed j f (hstack ▸ List.mem_cons_self) r ((hc.ok g hg).2 r hr)
      · exact h.borrowed j g (hstack ▸ List.mem_cons_of_mem f hg) r hr
    · rw [Machine.put_ne _ _ _ hj] at hg ⊢
      exact h.borrowed j g hg r hr
  once := by
    have honce := h.once
    rw [Machine.dying_split hstack, Multiset.nodup_add] at honce
    rw [Machine.dying_put, Multiset.nodup_add]
    refine ⟨?_, honce.2.1, Multiset.disjoint_left.2 fun hgs ho =>
      (h.other_apart hstack hc ho).2 hgs⟩
    cases hc.teardown with
    | same hsame => exact hsame ▸ honce.1
    | start _ _ _ _ _ hq => exact hq ▸ Multiset.nodup_singleton _
    | finish _ _ hzero _ => exact hzero ▸ Multiset.nodup_zero
  dying r y hy hd := by
    rw [Machine.put_mem] at hy
    rw [Machine.dying_put]
    by_contra hnot
    have hgs : r ∉ stackDying gs := fun hgs => hnot (Multiset.mem_add.2 (Or.inl hgs))
    have hf : r ∉ f.dying := fun hf => by
      rw [(hc.gone hf hgs).1] at hy
      cases hy
    have hsame := hc.record r hf hgs
    cases hx : recordAt m.mem r with
    | none =>
      rw [hsame.none hx] at hy
      cases hy
    | some x =>
      obtain ⟨z, hz, hiff⟩ := hsame.some x hx
      obtain rfl : y = z := Option.some.inj (hy.symm.trans hz)
      have hmem := h.dying r x hx (hiff.1 hd)
      rw [Machine.dying_split hstack] at hmem
      exact hnot (Multiset.mem_add.2 (Or.inr ((Multiset.mem_add.1 hmem).resolve_left hf)))
  gone r hr₀ hnone := by
    rw [Machine.put_mem] at hnone ⊢
    have hgs : r ∉ stackDying gs := fun hgs => by
      obtain ⟨z, hz, _⟩ := hc.condemned hgs
      rw [hnone] at hz
      cases hz
    by_cases hf : r ∈ f.dying
    · exact hc.gone hf hgs
    · have hsame := hc.record r hf hgs
      cases hx : recordAt m.mem r with
      | none =>
        refine ⟨hnone, ?_⟩
        rw [hsame.events, (h.gone r hr₀ hx).2]
        rintro o rfl
        exact hr₀ rfl
      | some x =>
        obtain ⟨z, hz, _⟩ := hsame.some x hx
        rw [hnone] at hz
        cases hz

omit [DecidableEq ι] in
/-- A machine step that leaves the memory and the activations of every thread
alone. -/
theorem Inv.handover {m' : Machine ι} (h : Inv s₀ m) (hmem : m'.mem = m.mem)
    (hrefs : m'.refs s₀ = m.refs s₀) (hdying : m'.dying = m.dying)
    (hframes : ∀ j, ∀ f ∈ (m'.workers j).stack, f.Ok s₀ m.mem ∧
      ∀ r ∈ f.borrowed s₀, r ∈ (m'.workers j).held) : Inv s₀ m' where
  sane := hmem ▸ h.sane
  sound := by
    rw [hmem, hrefs]
    exact h.sound
  frames j f hf := hmem ▸ (hframes j f hf).1
  borrowed j f hf := (hframes j f hf).2
  once := hdying ▸ h.once
  dying r x hx hd := by
    rw [hdying]
    exact h.dying r x (hmem ▸ hx) hd
  gone r hr hn := by
    unfold Gone
    rw [hmem] at hn ⊢
    exact h.gone r hr hn

end

/-! ## Calls -/

section

variable {s₀ s : Mem} {f : Frame} {object v : Addr} {flags : Flags}

/-- The heap copy of a variable is where it was at the start. -/
theorem Target.forwardOf_eq (hs : Sane s₀ s) (h : Target s₀ s (.byref (forwardOf s v))) :
    forwardOf s v = forwardOf s₀ v ∧ s₀.byrefs v ≠ none := by
  cases hd : s.byrefs v with
  | none =>
    rw [show forwardOf s v = v by simp [forwardOf, hd]] at h
    obtain ⟨d, hd', _⟩ := h.byref hs
    rw [hd] at hd'
    cases hd'
  | some d =>
    obtain ⟨c, w, hc, rfl, _⟩ := hs.fades.byref v d hd
    refine ⟨?_, hc ▸ Option.some_ne_none c⟩
    rw [forwardOf_some hd, forwardOf_some hc]
    rfl

theorem heldRefs_eq (hs : Sane s₀ s) (h : ∀ r ∈ heldRefs s object flags, Target s₀ s r) :
    heldRefs s object flags = heldRefs s₀ object flags ∧
      (heldKind flags = .byref ∨ heldKind flags = .weakByref → s₀.byrefs object ≠ none) := by
  have hbyref : heldKind flags = .byref ∨ heldKind flags = .weakByref →
      forwardOf s object = forwardOf s₀ object ∧ s₀.byrefs object ≠ none := fun hk => by
    refine (h (.byref (forwardOf s object)) ?_).forwardOf_eq hs
    rcases hk with hk | hk <;> simp [heldRefs, hk]
  refine ⟨?_, fun hk => (hbyref hk).2⟩
  unfold heldRefs
  cases hk : heldKind flags with
  | byref => simp [(hbyref (Or.inl hk)).1]
  | weakByref => simp [(hbyref (Or.inr hk)).1]
  | _ => rfl

/-- A call on references that are counted is in order. -/
theorem Frame.entry_ok (hs : Sane s₀ s) (hf : f.entry = true)
    (hrefs : ∀ r ∈ f.refs s, Target s₀ s r) (hb : ∀ r ∈ f.borrowed s, Target s₀ s r) :
    f.refs s = f.refs s₀ ∧ f.borrowed s = f.borrowed s₀ ∧ f.dying = 0 ∧ f.Ok s₀ s := by
  cases f with
  | objectDispose object flags =>
    obtain ⟨heq, hstatic⟩ := heldRefs_eq hs hrefs
    exact ⟨heq, rfl, rfl, .of_static rfl hstatic⟩
  | objectAssign object flags =>
    obtain ⟨heq, hstatic⟩ := heldRefs_eq hs hb
    exact ⟨rfl, heq, rfl, .of_static rfl hstatic⟩
  | release arg => exact ⟨rfl, rfl, rfl, .of_static rfl trivial⟩
  | copy arg => exact ⟨rfl, rfl, rfl, .of_static rfl trivial⟩
  | _ => cases hf

end

section

variable {s₀ : Mem} {m m' : Machine ι} {i j : ι} {f : Frame} {rest w : Multiset Ref}

/-- An idle thread calls the runtime. -/
theorem Inv.call (h : Inv s₀ m) (hidle : (m.workers i).stack = []) (hf : f.entry = true)
    (hheld : (m.workers i).held = f.refs m.mem + rest) (hborrow : f.borrowed m.mem ≤ rest) :
    Inv s₀ (m.put i m.mem ⟨[f], rest⟩) := by
  have hle : rest ≤ (m.workers i).held := hheld ▸ Multiset.le_add_left _ _
  obtain ⟨hrefs, hb, hdown, hok⟩ := Frame.entry_ok h.sane hf
    (fun r hr => h.target_held (i := i) (hheld ▸ Multiset.mem_add.2 (Or.inl hr)))
    (fun r hr => h.target_held (i := i) (Multiset.mem_of_le (hborrow.trans hle) hr))
  refine h.handover rfl ?_ ?_ fun k g hg => ?_
  · rw [Machine.refs, sum_put (Worker.refs s₀), Machine.refs, sum_workers (Worker.refs s₀) m i]
    simp [Worker.refs, hidle, hheld, hrefs]
  · rw [Machine.dying, sum_put (fun x => stackDying x.stack), Machine.dying,
      sum_workers (fun x => stackDying x.stack) m i]
    simp [hidle, hdown]
  · by_cases hk : k = i
    · subst hk
      simp only [Machine.put_self, List.mem_singleton] at hg ⊢
      subst hg
      exact ⟨hok, fun r hr => Multiset.mem_of_le hborrow (hb ▸ hr)⟩
    · rw [Machine.put_ne _ _ _ hk] at hg ⊢
      exact ⟨h.frames k g hg, h.borrowed k g hg⟩

/-- An idle thread hands over references. -/
theorem Inv.give (h : Inv s₀ m) (hij : i ≠ j) (hidle : (m.workers i).stack = [])
    (hheld : (m.workers i).held = w + rest) :
    Inv s₀ ((m.put i m.mem ⟨[], rest⟩).put j m.mem
      ⟨(m.workers j).stack, (m.workers j).held + w⟩) := by
  refine h.handover rfl (sum_give (Worker.refs s₀) m hij ?_)
    (sum_give (fun x => stackDying x.stack) m hij ?_) fun k g hg => ?_
  · simp only [Worker.refs, hidle, hheld, stackRefs_nil, zero_add, add_assoc]
  · simp only [hidle]
  · by_cases hk : k = j
    · subst hk
      simp only [Machine.put_self] at hg ⊢
      exact ⟨h.frames k g hg, fun r hr => Multiset.mem_add.2 (Or.inl (h.borrowed k g hg r hr))⟩
    · rw [Machine.put_ne _ _ _ hk] at hg ⊢
      by_cases hki : k = i
      · subst hki
        rw [Machine.put_self] at hg
        cases hg
      · rw [Machine.put_ne _ _ _ hki] at hg ⊢
        exact ⟨h.frames k g hg, h.borrowed k g hg⟩

/-- A step of the machine keeps the invariant. -/
theorem Inv.step {a : Act ι} (h : Inv s₀ m) (hstep : m.Step a m') : Inv s₀ m' := by
  cases hstep with
  | call i f rest hidle hf hheld hborrow => exact h.call hidle hf hheld hborrow
  | advance i f fs gs gained t hstack hrun =>
    obtain ⟨gs', gained', t', d, hrun', hc⟩ := h.goes hstack
    rw [hrun, Except.ok.injEq, Prod.mk.injEq, Prod.mk.injEq] at hrun'
    obtain ⟨⟨rfl, rfl⟩, rfl⟩ := hrun'
    exact h.advance hstack hc
  | give i j w rest hij hidle hheld => exact h.give hij hidle hheld

theorem Inv.run {acts : List (Act ι)} (h : Inv s₀ m) (hrun : m.Run acts m') : Inv s₀ m' := by
  induction hrun with
  | start => exact h
  | step _ _ _ _ _ hstep ih => exact ih.step hstep

end

/-! ## Safety -/

/-- What holds of every reachable state. -/
structure Safe (s₀ : Mem) (m : Machine ι) : Prop where
  /-- No thread faults. -/
  runs : ∀ i f fs, (m.workers i).stack = f :: fs → ∃ out t, f.step m.mem = .ok (out, t)
  /-- What has happened to a record is a beginning of its deallocation, and all
  of it has happened when the record is freed. -/
  lifecycle : ∀ r x, recordAt s₀ r = some x → ∃ p, p <+: deathOf s₀ r ∧
    history r m.mem.trace = history r s₀.trace ++ p ∧
      (recordAt m.mem r = none ↔ p = deathOf s₀ r)
  /-- The references of the threads are to live records. -/
  closed : ∀ r ∈ m.refs s₀, External s₀ r ∨ ∃ x, recordAt m.mem r = some x ∧ x.Live
  /-- The count of a live record is the number of references to it. -/
  counted : ∀ r x, recordAt m.mem r = some x → x.Live → refcount x.word = latched ∨
    refcount x.word = (sharedGraph m.mem).refs (m.refs s₀) r
  /-- A record with a verdict is torn down by one thread. -/
  torn : ∀ r x, recordAt m.mem r = some x → x.Dying → m.dying.count r = 1

section

variable {s₀ : Mem} {m₀ m : Machine ι} {acts : List (Act ι)}

omit [DecidableEq ι] in
theorem Start.inv (h : Start s₀ m) : Inv s₀ m where
  sane := by
    rw [h.mem]
    exact ⟨h.rep, .refl s₀, h.positive, fun _ _ _ _ => rfl⟩
  sound := by
    rw [h.mem, Machine.refs]
    simp only [Worker.refs, h.idle, stackRefs_nil, zero_add]
    exact h.counted
  frames i f hf := by
    rw [h.idle i] at hf
    cases hf
  borrowed i f hf := by
    rw [h.idle i] at hf
    cases hf
  once := by simp [Machine.dying, h.idle]
  dying r x hx hd := by
    rw [h.mem] at hx
    exact absurd hd (h.settled r x hx)
  gone r hr hn := by
    rw [h.mem] at hn
    exact absurd hn hr

/-- A record that is there dies with at least one event. -/
theorem deathOf_ne_nil {s : Mem} {r : Ref} {x : HeapRecord} (hx : recordAt s r = some x) :
    deathOf s r ≠ [] := by
  cases r with
  | block a =>
    obtain ⟨c, hc, _⟩ := Option.map_eq_some_iff.1 hx
    simp only [deathOf, hc, blockDeath]
    split <;> exact List.cons_ne_nil _ _
  | byref a =>
    obtain ⟨c, hc, _⟩ := Option.map_eq_some_iff.1 hx
    simp only [deathOf, hc, byrefDeath]
    split <;> exact List.cons_ne_nil _ _
  | object o => cases hx

/-- An activation that tears a record down owes it at least one event. -/
theorem Frame.todo_ne_nil {s : Mem} {f : Frame} {r : Ref} {x : HeapRecord} (hr : r ∈ f.dying)
    (hx : recordAt s r = some x) : f.todo s ≠ [] := by
  cases f with
  | callDisposeHelper a => exact deathOf_ne_nil (Multiset.mem_singleton.1 hr ▸ hx)
  | byrefHasDispose p => exact deathOf_ne_nil (Multiset.mem_singleton.1 hr ▸ hx)
  | destructInstance a => exact List.cons_ne_nil _ _
  | freeBlock a => exact List.cons_ne_nil _ _
  | byrefDestroy p => exact List.cons_ne_nil _ _
  | freeByref p => exact List.cons_ne_nil _ _
  | _ => exact absurd hr (Multiset.notMem_zero r)

omit [DecidableEq ι] in
theorem Inv.lifecycle (h : Inv s₀ m) {r : Ref} {x : HeapRecord} (hx : recordAt s₀ r = some x) :
    ∃ p, p <+: deathOf s₀ r ∧ history r m.mem.trace = history r s₀.trace ++ p ∧
      (recordAt m.mem r = none ↔ p = deathOf s₀ r) := by
  cases hy : recordAt m.mem r with
  | none => exact ⟨_, List.prefix_rfl, (h.gone r (hx ▸ Option.some_ne_none x) hy).2, by simp⟩
  | some y =>
    by_cases hd : y.Dying
    · -- the activation that tears it down knows what is left
      obtain ⟨i, _, hi⟩ := Multiset.mem_sum.1 (h.dying r y hy hd)
      obtain ⟨f, hf, hr⟩ := (mem_stackDying _).1 hi
      obtain ⟨_, p, hp, hh⟩ := (h.frames i f hf).condemned r hr
      refine ⟨p, ⟨_, hp⟩, hh, ?_⟩
      simpa [← hp] using Frame.todo_ne_nil hr hx
    · refine ⟨[], List.nil_prefix, ?_, ?_⟩
      · rw [h.sane.unhurt r y hy hd, List.append_nil]
      · simpa using (deathOf_ne_nil hx).symm

/-- What the invariant means. -/
theorem Inv.safe (h : Inv s₀ m) : Safe s₀ m where
  runs i f fs hstack := by
    obtain ⟨gs, gained, t, _, hrun, _⟩ := h.goes hstack
    exact ⟨(gs, gained), t, hrun⟩
  lifecycle r x hx := h.lifecycle hx
  closed r hr := by
    by_cases hext : External s₀ r
    · exact Or.inl hext
    · obtain ⟨x, hx, hl, _⟩ := (h.target hr).live h.sane hext
      exact Or.inr ⟨x, hx, hl⟩
  counted r x hx hl :=
    h.sound.counted r x.node ((h.sane.fades.rep h.sane.rep).node hx hl)
  torn r x hx hd := Multiset.count_eq_one_of_mem h.once (h.dying r x hx hd)

/-- No interleaving of retains and releases of any number of threads does any
harm. -/
theorem threads_safe (h : Start s₀ m₀) (hrun : m₀.Run acts m) : Safe s₀ m :=
  (h.inv.run hrun).safe

theorem threads_safe_raced : Safe copiedClient.mem raced := by
  obtain ⟨acts, hrun, _⟩ := raced_run
  exact threads_safe sharing_start hrun

/-- At any moment a heap record is live for a reason, or one thread is about
to free it. -/
theorem threads_no_garbage (h : Start s₀ m₀) (hrun : m₀.Run acts m) {r : Ref}
    {x : HeapRecord} (hx : recordAt m.mem r = some x) (hheap : x.storage = .heap) :
    (sharedGraph m.mem).Kept latched (m.refs s₀) r ∨ r ∈ m.dying := by
  have hinv := h.inv.run hrun
  rcases HeapRecord.live_or_dying hheap with hl | hd
  · have hsound : Sound latched (External s₀) (sharedGraph m.mem) (0 + m.refs s₀) := by
      rw [zero_add]
      exact hinv.sound
    have hnode := (hinv.sane.fades.rep hinv.sane.rep).node hx hl
    exact Or.inl (survivor_kept (Drains.nil latched _) hsound hinv.sane.positive
      (hnode ▸ Option.some_ne_none _))
  · exact Or.inr (hinv.dying r x hx hd)

theorem threads_no_garbage_racing :
    (sharedGraph racing.mem).Kept latched (racing.refs copiedClient.mem) (.block 4) ∨
      .block 4 ∈ racing.dying :=
  threads_no_garbage sharing_start racing_run
    (show recordAt racing.mem (.block 4) = some _ from rfl) rfl

end

end BlocksRuntime.Threads
