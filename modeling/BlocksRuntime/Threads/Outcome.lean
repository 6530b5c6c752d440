import BlocksRuntime.Threads.Progress

/-!
# The outcome of concurrent releases

When the threads only release, what is left in the end does not depend on how
they were scheduled.

* `given` are the references that the calls of a run give up, and
  `Machine.flight` are those still on their way.
* `Ledger` is the invariant of a run of releases: the deeds so far are a
  cascade from the memory at the start.
* `releases_outcome` says that a run which ends with all threads idle is a
  complete cascade, `releases_determined` that two such runs end in the same
  memory, and `releases_survivors` which records they leave behind.
* `threads_disciplined` says that the memory is fit for sequential calls again.
-/

namespace BlocksRuntime.Threads

open Ownership RetryLoop Relation

/-- The calls that only give up references. -/
def Frame.gives : Frame → Bool
  | .release _ | .objectDispose _ _ => true
  | _ => false

theorem Frame.gives_entry {f : Frame} (h : f.gives = true) (s : Mem) :
    f.entry = true ∧ f.borrowed s = 0 := by
  cases f with
  | release arg => exact ⟨rfl, rfl⟩
  | objectDispose object flags => exact ⟨rfl, rfl⟩
  | _ => cases h

/-- The references that calls give up. -/
def given (s₀ : Mem) (calls : List Frame) : Multiset Ref := (calls.map (Frame.refs s₀)).sum

theorem given_append (s₀ : Mem) (fs gs : List Frame) :
    given s₀ (fs ++ gs) = given s₀ fs + given s₀ gs := by
  simp [given]

/-- What objects hear of a drop is what leaves the graph. -/
theorem drop_events {s₀ s : Mem} (hs : Sane s₀ s) (r : Ref) (o : Addr) :
    history (.object o) (Deed.drop r).events =
      List.replicate (((sharedGraph s).drop latched r).2.2.count (.object o))
        (.releaseObject o) := by
  by_cases hr : r = .object o
  · subst hr
    rw [drop_external (r := .object o) hs trivial]
    simp [Deed.events, history, Event.subject]
  · have hcount : ((sharedGraph s).drop latched r).2.2.count (.object o) = 0 := by
      rcases (sharedGraph s).drop_cases latched r with ⟨_, he⟩ | ⟨_, _, _, he⟩ | ⟨_, _, _, _, he⟩ |
        ⟨_, _, _, _, he⟩
      · rw [he, Multiset.count_singleton, if_neg fun h => hr h.symm]
      all_goals rw [he]; exact Multiset.count_zero _
    rw [hcount]
    cases r with
    | object o' =>
      have ho : o' ≠ o := fun h => hr (by rw [h])
      simp [Deed.events, history, Event.subject, ho]
    | block a => rfl
    | byref a => rfl

variable {ι : Type} [DecidableEq ι] [Fintype ι]

/-- The references that the activations are going to give up. -/
def Machine.flight (s₀ : Mem) (m : Machine ι) : Multiset Ref :=
  ∑ i, stackRefs s₀ (m.workers i).stack

/-- The references that the threads hold. -/
def Machine.held (m : Machine ι) : Multiset Ref := ∑ i, (m.workers i).held

/-- The books of a run of releases.  The references in `left` have left the
graph. -/
structure Ledger (s₀ : Mem) (m₀ : Machine ι) (acts : List (Act ι)) (m : Machine ι)
    (left : Multiset Ref) : Prop where
  releases : ∀ i, ∀ f ∈ (m.workers i).stack, ∀ r, r ∉ f.borrowed s₀
  held : m₀.held = given s₀ (callsOf acts) + m.held
  cascade : ReflTransGen (DropStep latched) ⟨sharedGraph s₀, given s₀ (callsOf acts), 0⟩
    ⟨sharedGraph m.mem, m.flight s₀, left⟩
  objects : ∀ o, history (.object o) m.mem.trace = history (.object o) s₀.trace ++
    List.replicate (left.count (.object o)) (.releaseObject o)

section

variable {s₀ : Mem} {m₀ m m' : Machine ι} {acts : List (Act ι)} {left : Multiset Ref} {i j : ι}
  {f : Frame} {fs gs : List Frame} {gained rest w : Multiset Ref} {t : Mem} {d : Deed}

/-! ## The step lemmas -/

theorem Ledger.advance (h : Ledger s₀ m₀ acts m left) (hinv : Inv s₀ m)
    (hstack : (m.workers i).stack = f :: fs) (hc : Change s₀ m.mem f gs gained t d) :
    ∃ left', Ledger s₀ m₀ (acts ++ [.advance i])
      (m.put i t ⟨gs ++ fs, (m.workers i).held + gained⟩) left' := by
  have hf : f ∈ (m.workers i).stack := hstack ▸ List.mem_cons_self
  have hcalls : callsOf (acts ++ [Act.advance i]) = callsOf acts := by
    simp [callsOf, List.filterMap_append]
  have hgained : gained = 0 := by
    rw [hc.gained]
    cases d with
    | acquire r =>
      exact absurd (hc.borrowed r (Multiset.mem_singleton_self r)) (h.releases i f hf r)
    | quiet => rfl
    | drop r => rfl
  obtain ⟨v, hrefs, hgs⟩ := hc.refs
  -- the references in flight, with those of the top activation set apart
  have hflight : m.flight s₀ = d.spent + (v + (stackRefs s₀ fs +
      ∑ j ∈ Finset.univ.erase i, stackRefs s₀ (m.workers j).stack)) := by
    rw [Machine.flight, sum_workers (fun x => stackRefs s₀ x.stack) m i, hstack, stackRefs_cons,
      hrefs]
    simp only [add_assoc]
  have hflight' : (m.put i t ⟨gs ++ fs, (m.workers i).held + gained⟩).flight s₀ =
      d.pending (sharedGraph m.mem) + (v + (stackRefs s₀ fs +
        ∑ j ∈ Finset.univ.erase i, stackRefs s₀ (m.workers j).stack)) := by
    rw [Machine.flight, sum_put (fun x => stackRefs s₀ x.stack) m i, stackRefs_append, hgs]
    simp only [add_assoc]
  have hreleases : ∀ j, ∀ g ∈ ((m.put i t ⟨gs ++ fs, (m.workers i).held + gained⟩).workers j).stack,
      ∀ r, r ∉ g.borrowed s₀ := by
    intro j g hg r hr
    by_cases hj : j = i
    · subst hj
      rw [Machine.put_self] at hg
      rcases List.mem_append.1 hg with hg | hg
      · exact h.releases j f hf r ((hc.ok g hg).2 r hr)
      · exact h.releases j g (hstack ▸ List.mem_cons_of_mem f hg) r hr
    · rw [Machine.put_ne _ _ _ hj] at hg
      exact h.releases j g hg r hr
  have hheld : m₀.held = given s₀ (callsOf (acts ++ [Act.advance i])) +
      (m.put i t ⟨gs ++ fs, (m.workers i).held + gained⟩).held := by
    rw [hcalls, h.held, Machine.held, Machine.held, sum_put Worker.held m i,
      sum_workers Worker.held m i, hgained, add_zero]
  cases d with
  | quiet =>
    refine ⟨left, hreleases, hheld, ?_, fun o => ?_⟩
    · rw [hcalls, hflight', Machine.put_mem, hc.graph]
      have hcascade := h.cascade
      rwa [hflight] at hcascade
    · rw [Machine.put_mem, hc.objects, h.objects]
      exact List.append_nil _
  | drop r =>
    refine ⟨((sharedGraph m.mem).drop latched r).2.2 + left, hreleases, hheld, ?_, fun o => ?_⟩
    · rw [hcalls, hflight', Machine.put_mem, hc.graph]
      have hcascade := h.cascade
      rw [hflight] at hcascade
      exact hcascade.tail ⟨r, _, Multiset.singleton_add r _, rfl⟩
    · rw [Machine.put_mem, hc.objects, h.objects, drop_events hinv.sane, List.append_assoc,
        List.replicate_append_replicate, Multiset.count_add, add_comm]
  | acquire r => exact absurd (hc.borrowed r (Multiset.mem_singleton_self r)) (h.releases i f hf r)

theorem Ledger.call (h : Ledger s₀ m₀ acts m left) (hinv : Inv s₀ m)
    (hidle : (m.workers i).stack = []) (hf : f.gives = true)
    (hheld : (m.workers i).held = f.refs m.mem + rest) :
    Ledger s₀ m₀ (acts ++ [.call i f]) (m.put i m.mem ⟨[f], rest⟩) left := by
  obtain ⟨hentry, hborrow⟩ := Frame.gives_entry hf m.mem
  obtain ⟨hrefs, _, _, _⟩ := Frame.entry_ok hinv.sane hentry
    (fun r hr => hinv.target_held (i := i) (hheld ▸ Multiset.mem_add.2 (Or.inl hr)))
    (fun r hr => by
      rw [hborrow] at hr
      exact absurd hr (Multiset.notMem_zero r))
  have hcalls : given s₀ (callsOf (acts ++ [Act.call i f])) =
      given s₀ (callsOf acts) + f.refs s₀ := by
    rw [show callsOf (acts ++ [Act.call i f]) = callsOf acts ++ [f] by
      simp [callsOf, List.filterMap_append], given_append]
    simp [given]
  exact {
    releases := fun j g hg r => by
      by_cases hj : j = i
      · subst hj
        rw [Machine.put_self, List.mem_singleton] at hg
        rw [hg, (Frame.gives_entry hf s₀).2]
        exact Multiset.notMem_zero r
      · rw [Machine.put_ne _ _ _ hj] at hg
        exact h.releases j g hg r
    held := by
      rw [hcalls, h.held, Machine.held, Machine.held, sum_put Worker.held m i,
        sum_workers Worker.held m i, hheld, hrefs]
      simp only [add_assoc]
    cascade := by
      -- more references are pending than before
      have hflight : (m.put i m.mem ⟨[f], rest⟩).flight s₀ = m.flight s₀ + f.refs s₀ := by
        rw [Machine.flight, sum_put (fun x => stackRefs s₀ x.stack) m i, Machine.flight,
          sum_workers (fun x => stackRefs s₀ x.stack) m i, hidle]
        simp [add_comm]
      rw [hcalls, hflight]
      simpa using reflTransGen_dropStep_frame h.cascade (f.refs s₀) 0
    objects := h.objects }

theorem Ledger.give (h : Ledger s₀ m₀ acts m left) (hij : i ≠ j)
    (hidle : (m.workers i).stack = []) (hheld : (m.workers i).held = w + rest) :
    Ledger s₀ m₀ (acts ++ [.give i j]) ((m.put i m.mem ⟨[], rest⟩).put j m.mem
      ⟨(m.workers j).stack, (m.workers j).held + w⟩) left := by
  have hcalls : callsOf (acts ++ [Act.give i j]) = callsOf acts := by
    simp [callsOf, List.filterMap_append]
  exact {
    releases := fun k g hg r => by
      by_cases hk : k = j
      · subst hk
        rw [Machine.put_self] at hg
        exact h.releases k g hg r
      · rw [Machine.put_ne _ _ _ hk] at hg
        by_cases hki : k = i
        · subst hki
          rw [Machine.put_self] at hg
          cases hg
        · rw [Machine.put_ne _ _ _ hki] at hg
          exact h.releases k g hg r
    held := by
      rw [hcalls, h.held, Machine.held, Machine.held,
        sum_give Worker.held m hij (by rw [hheld, add_right_comm, add_assoc, add_comm w])]
    cascade := by
      rw [hcalls, Machine.flight, sum_give (fun x => stackRefs s₀ x.stack) m hij (by simp [hidle])]
      exact h.cascade
    objects := h.objects }

/-- A run of releases keeps its books. -/
theorem Ledger.run (h : Start s₀ m₀) (hrun : m₀.Run acts m)
    (hgives : ∀ f ∈ callsOf acts, f.gives = true) : ∃ left, Ledger s₀ m₀ acts m left := by
  induction hrun with
  | start =>
    refine ⟨0, fun i f hf => ?_, ?_, ?_, fun o => ?_⟩
    · rw [h.idle i] at hf
      cases hf
    · simp [callsOf, given]
    · rw [h.mem, show m₀.flight s₀ = 0 by simp [Machine.flight, h.idle]]
      exact .refl
    · rw [h.mem, Multiset.count_zero]
      exact (List.append_nil _).symm
  | step acts m₁ a m₂ hrun hstep ih =>
    have hmem : ∀ f, f ∈ callsOf acts ∨ f ∈ callsOf [a] → f.gives = true := fun f hf => by
      refine hgives f ?_
      rw [show callsOf (acts ++ [a]) = callsOf acts ++ callsOf [a] from List.filterMap_append]
      exact List.mem_append.2 hf
    obtain ⟨left, hl⟩ := ih fun f hf => hmem f (Or.inl hf)
    have hinv := h.inv.run hrun
    cases hstep with
    | call i f rest hidle hf hheld hborrow =>
      exact ⟨left, hl.call hinv hidle (hmem f (Or.inr (by simp [callsOf]))) hheld⟩
    | advance i f fs gs gained t hstack hrun' =>
      obtain ⟨gs', gained', t', d, hrun'', hc⟩ := hinv.goes hstack
      rw [hrun', Except.ok.injEq, Prod.mk.injEq, Prod.mk.injEq] at hrun''
      obtain ⟨⟨rfl, rfl⟩, rfl⟩ := hrun''
      exact hl.advance hinv hstack hc
    | give i j w rest hij hidle hheld => exact ⟨left, hl.give hij hidle hheld⟩

/-! ## The results -/

/-- A run of releases that ends with all threads idle is a complete cascade of
the references that its calls gave up. -/
theorem releases_outcome (h : Start s₀ m₀) (hrun : m₀.Run acts m)
    (hgives : ∀ f ∈ callsOf acts, f.gives = true) (hidle : ∀ i, (m.workers i).stack = []) :
    ∃ left, m₀.held = given s₀ (callsOf acts) + m.held ∧
      Drains latched (sharedGraph s₀) (given s₀ (callsOf acts)) (sharedGraph m.mem) left ∧
      ∀ o, history (.object o) m.mem.trace = history (.object o) s₀.trace ++
        List.replicate (left.count (.object o)) (.releaseObject o) := by
  obtain ⟨left, hl⟩ := Ledger.run h hrun hgives
  have hflight : m.flight s₀ = 0 := by simp [Machine.flight, hidle]
  have hcascade := hl.cascade
  rw [hflight] at hcascade
  exact ⟨left, hl.held, hcascade, hl.objects⟩

end

/-! ## One memory -/

section

variable {κ : Type} [DecidableEq κ] [Fintype κ] {s₀ : Mem} {m₀ m : Machine ι} {n₀ n : Machine κ}
  {acts : List (Act ι)} {acts' : List (Act κ)} {r : Ref} {x : HeapRecord}

omit [DecidableEq ι] in
/-- Between the calls no record is in teardown. -/
theorem Inv.idle_not_dying (h : Inv s₀ m) (hidle : ∀ i, (m.workers i).stack = [])
    (hx : recordAt m.mem r = some x) : ¬x.Dying := fun hd => by
  have hmem := h.dying r x hx hd
  rw [show m.dying = 0 by simp [Machine.dying, hidle]] at hmem
  exact Multiset.notMem_zero r hmem

omit [DecidableEq ι] in
/-- Between the calls a heap record is a node of the graph. -/
theorem Inv.idle_node (h : Inv s₀ m) (hidle : ∀ i, (m.workers i).stack = [])
    (hx : recordAt m.mem r = some x) (hheap : x.storage = .heap) :
    x.Live ∧ (sharedGraph m.mem).node r = some x.node := by
  have hl := (HeapRecord.live_or_dying hheap).resolve_right (h.idle_not_dying hidle hx)
  exact ⟨hl, (h.sane.fades.rep h.sane.rep).node hx hl⟩

omit [DecidableEq ι] [DecidableEq κ] in
/-- The graph determines the records between the calls. -/
theorem idle_record (h : Inv s₀ m) (h' : Inv s₀ n) (hidle : ∀ i, (m.workers i).stack = [])
    (hg : sharedGraph m.mem = sharedGraph n.mem)
    (hx : recordAt m.mem r = some x) : recordAt n.mem r = some x := by
  obtain ⟨z, hz, hstorage, howns, hhigh⟩ := h.sane.fades.record hx
  by_cases hheap : x.storage = .heap
  · obtain ⟨hl, hnode⟩ := h.idle_node hidle hx hheap
    rw [hg] at hnode
    obtain ⟨y, hy, _, hly, hxy⟩ := sharedNode_some hnode
    obtain ⟨z', hz', hstorage', howns', hhigh'⟩ := h'.sane.fades.record hy
    obtain rfl : z = z' := Option.some.inj (hz.symm.trans hz')
    have hword : x.word = y.word := flags_ext (congrArg Node.count hxy)
      (hl.2.trans hly.2.symm) (hhigh.trans hhigh'.symm)
    rw [hy, HeapRecord.ext (hstorage.trans hstorage'.symm) hword (howns.trans howns'.symm)]
  · have hkept := h.sane.fades.record_kept hz (hstorage ▸ hheap)
    obtain rfl : x = z := Option.some.inj (hx.symm.trans hkept)
    exact h'.sane.fades.record_kept hz hheap

omit [DecidableEq ι] in
/-- The events about a record between the calls. -/
theorem Inv.idle_history (h : Inv s₀ m) (hidle : ∀ i, (m.workers i).stack = [])
    (hr : recordAt s₀ r ≠ none) : history r m.mem.trace =
      history r s₀.trace ++ if recordAt m.mem r = none then deathOf s₀ r else [] := by
  cases hx : recordAt m.mem r with
  | none =>
    rw [if_pos rfl]
    exact (h.gone r hr hx).2
  | some x =>
    rw [if_neg (Option.some_ne_none x), List.append_nil]
    exact h.sane.unhurt r x hx (h.idle_not_dying hidle hx)

/-- The outcome of releases does not depend on the threads: two runs that end
idle and give up the same references come to the same memory, and every record
and every object has seen the same. -/
theorem releases_determined (h : Start s₀ m₀) (h' : Start s₀ n₀) (hrun : m₀.Run acts m)
    (hrun' : n₀.Run acts' n) (hgives : ∀ f ∈ callsOf acts, f.gives = true)
    (hgives' : ∀ f ∈ callsOf acts', f.gives = true) (hidle : ∀ i, (m.workers i).stack = [])
    (hidle' : ∀ i, (n.workers i).stack = [])
    (hsame : given s₀ (callsOf acts) = given s₀ (callsOf acts')) :
    SameCells m.mem n.mem ∧ (∀ r, recordAt s₀ r ≠ none →
      history r m.mem.trace = history r n.mem.trace) ∧
        ∀ o, history (.object o) m.mem.trace = history (.object o) n.mem.trace := by
  obtain ⟨left, _, hdrains, hobj⟩ := releases_outcome h hrun hgives hidle
  obtain ⟨left', _, hdrains', hobj'⟩ := releases_outcome h' hrun' hgives' hidle'
  rw [hsame] at hdrains
  obtain ⟨hg, rfl⟩ := hdrains.unique hdrains'
  have hm := h.inv.run hrun
  have hn := h'.inv.run hrun'
  have hrecords : ∀ r, recordAt m.mem r = recordAt n.mem r := by
    intro r
    cases hx : recordAt m.mem r with
    | some x => exact (idle_record hm hn hidle hg hx).symm
    | none => cases hy : recordAt n.mem r with
      | none => rfl
      | some y =>
        rw [idle_record hn hm hidle' hg.symm hy] at hx
        cases hx
  refine ⟨hm.sane.fades.sameCells hn.sane.fades hrecords, fun r hr => ?_, fun o => ?_⟩
  · rw [hm.idle_history hidle hr, hn.idle_history hidle' hr, hrecords r]
  · rw [hobj, hobj']

/-- What concurrent releases leave behind: the records that can be reached, at
the start, from a reference that is still held, from an ownership cycle, or
from a latched record. -/
theorem releases_survivors (h : Start s₀ m₀) (hrun : m₀.Run acts m)
    (hgives : ∀ f ∈ callsOf acts, f.gives = true) (hidle : ∀ i, (m.workers i).stack = [])
    (hx : recordAt s₀ r = some x) (hheap : x.storage = .heap) :
    recordAt m.mem r ≠ none ↔ (sharedGraph s₀).Kept latched m.held r := by
  obtain ⟨left, hheld, hdrains, _⟩ := releases_outcome h hrun hgives hidle
  have hcounted := h.counted
  rw [show ∑ i, (m₀.workers i).held = m₀.held from rfl, hheld] at hcounted
  have hsurvive := hdrains.survivors hcounted h.positive r
  have hm := h.inv.run hrun
  have hl := (HeapRecord.live_or_dying hheap).resolve_right (h.settled r x hx)
  have hlive : (sharedGraph s₀).node r ≠ none := by
    rw [h.rep.node hx hl]
    exact Option.some_ne_none _
  rw [and_iff_right hlive] at hsurvive
  rw [← hsurvive]
  cases hy : recordAt m.mem r with
  | none => simp [sharedGraph_node, sharedNode_none hy]
  | some y =>
    obtain ⟨z, hz, hstorage, _⟩ := hm.sane.fades.record hy
    obtain rfl : x = z := Option.some.inj (hx.symm.trans hz)
    simp [(hm.idle_node hidle hy (hstorage.trans hheap)).2]

theorem releases_survivors_raced :
    recordAt raced.mem (.block 5) ≠ none ↔
      (sharedGraph copiedClient.mem).Kept latched raced.held (.block 5) := by
  obtain ⟨acts, hrun, hcalls⟩ := raced_run
  exact releases_survivors sharing_start hrun (by rw [hcalls]; decide) raced_idle
    (show recordAt copiedClient.mem (.block 5) = some _ from rfl) rfl

/-- Whatever the threads have called, between the calls their memory is one
that a single-threaded program may go on with. -/
theorem threads_disciplined {scope scope' : Finset Addr} {w w' : Multiset Ref}
    (h₀ : Disciplined s₀ scope w) (hmem : m₀.mem = s₀) (hidle₀ : ∀ i, (m₀.workers i).stack = [])
    (hheld₀ : ∑ i, (m₀.workers i).held = scopeRefs s₀ scope + w) (hrun : m₀.Run acts m)
    (hidle : ∀ i, (m.workers i).stack = [])
    (hheld : ∑ i, (m.workers i).held = scopeRefs s₀ scope' + w') : Disciplined m.mem scope' w' := by
  have hinv := (Disciplined.start h₀ hmem hidle₀ hheld₀).inv.run hrun
  have hsound := hinv.sound
  rw [Machine.refs] at hsound
  simp only [Worker.refs, hidle, stackRefs_nil, zero_add, hheld] at hsound
  exact hinv.sane.fades.disciplined h₀ hsound hinv.sane.positive
    fun r x hx => hinv.idle_not_dying hidle hx

theorem threads_disciplined_raced : Disciplined raced.mem ∅ 0 := by
  obtain ⟨acts, hrun, _⟩ := raced_run
  exact threads_disciplined (copied_run.disciplined plentiful_mallocOk) rfl (fun _ => rfl)
    (by decide : ∑ i, (sharing.workers i).held =
      scopeRefs copiedClient.mem copiedClient.scope + copiedClient.held) hrun raced_idle rfl

end

end BlocksRuntime.Threads
