import BlocksRuntime.Client
import BlocksRuntime.Threads.Fades
import Mathlib.Algebra.BigOperators.Group.Finset.Basic

/-!
# Memories that are shared

A memory of a single-threaded program can be shared between threads, and what
the threads leave behind can be used by such a program again.

* `sharedGraph_eq_graphOf` says that the graph of the threads is the graph of
  the sequential calls.
* `Start` is a machine whose threads have not called anything yet, and
  `Disciplined.start` gives each thread a share of what a program held.
* `Fades.disciplined` is the way back.
* `racing` is a small machine, which the witnesses use.
-/

namespace BlocksRuntime.Threads

open Ownership

section

variable {s t : Mem} {scope : Finset Addr} {w : Multiset Ref} {r : Ref} {x : HeapRecord}

/-- The helpers that compilers generate own nothing in a `__block` record. -/
theorem ownedByByref_of_ok {a : Addr} {c : ByrefCell} (hok : c.Ok a) :
    ownedByByref c.byref = 0 := by
  unfold ownedByByref
  cases hb : c.byref.byref2 with
  | none => rfl
  | some byref2 =>
    obtain ⟨field, flags, hd, _, _⟩ := (hok.helpers byref2 hb).destroy
    simp only [hd]

/-- Between the calls both graphs are the same. -/
theorem sharedGraph_eq_graphOf (hs : Rep s)
    (hb : ∀ a c, s.blocks a = some c → c.storage = .heap → c.layout.isa = .mallocBlock) :
    sharedGraph s = graphOf s := by
  ext1 r
  rw [sharedGraph_node, graphOf_node]
  cases r with
  | block a =>
    cases hc : s.blocks a with
    | none => rw [sharedNode_none (by simp [recordAt, hc]), nodeAt_block_none hc]
    | some c =>
      by_cases hl : (blockRecord c).Live
      · rw [sharedNode_live (blockRecord_of hc) (hs.block_lt a c hc) hl,
          nodeAt_block hc (hs.block_lt a c hc) ⟨hl.1, hb a c hc hl.1, hl.2⟩]
        rfl
      · rw [sharedNode_not_live (blockRecord_of hc) hl,
          nodeAt_block_dead hc fun hl' => hl ⟨hl'.1, hl'.2.2⟩]
  | byref a =>
    cases hc : s.byrefs a with
    | none => rw [sharedNode_none (by simp [recordAt, hc]), nodeAt_byref_none hc]
    | some c =>
      by_cases hl : (byrefRecord c).Live
      · rw [sharedNode_live (byrefRecord_of hc) (hs.byref_lt a c hc) hl,
          nodeAt_byref hc (hs.byref_lt a c hc) hl]
        simp only [HeapRecord.node, byrefRecord, ownedByByref_of_ok (hs.byref_ok a c hc), byrefNode]
      · rw [sharedNode_not_live (byrefRecord_of hc) hl, nodeAt_byref_dead hc hl]
  | object o => exact sharedNode_none rfl

theorem Disciplined.sharedGraph (h : Disciplined s scope w) : sharedGraph s = graphOf s :=
  sharedGraph_eq_graphOf h.rep fun a c hc hheap => (h.settled_block a c hc hheap).2.1

end

/-! ## The start -/

section

variable {ι : Type} [Fintype ι] {s₀ t : Mem} {scope : Finset Addr} {w : Multiset Ref}
  {m : Machine ι}

/-- The threads are idle, and the references that they hold are counted. -/
structure Start (s₀ : Mem) (m : Machine ι) : Prop where
  mem : m.mem = s₀
  idle : ∀ i, (m.workers i).stack = []
  rep : SharedRep s₀
  counted : Sound latched (External s₀) (sharedGraph s₀) (∑ i, (m.workers i).held)
  positive : Positive (sharedGraph s₀)
  settled : ∀ r x, recordAt s₀ r = some x → ¬x.Dying

/-- Threads that share what a program held. -/
theorem Disciplined.start (h : Disciplined s₀ scope w) (hmem : m.mem = s₀)
    (hidle : ∀ i, (m.workers i).stack = [])
    (hheld : ∑ i, (m.workers i).held = scopeRefs s₀ scope + w) : Start s₀ m where
  mem := hmem
  idle := hidle
  rep := .of_rep h.rep
  counted := by
    rw [hheld, Disciplined.sharedGraph h]
    exact h.counted
  positive := by
    rw [Disciplined.sharedGraph h]
    exact h.positive
  settled r x hx hd := by
    cases r with
    | block a =>
      obtain ⟨c, hc, rfl⟩ := Option.map_eq_some_iff.1 hx
      have hl := h.settled_block a c hc hd.1
      exact HeapRecord.Live.not_dying (x := blockRecord c) ⟨hl.1, hl.2.2⟩ hd
    | byref a =>
      obtain ⟨c, hc, rfl⟩ := Option.map_eq_some_iff.1 hx
      exact HeapRecord.Live.not_dying (x := byrefRecord c) (h.settled_byref a c hc hd.1) hd
    | object o => cases hx

end

/-! ## The end -/

section

variable {s₀ t : Mem} {scope scope' : Finset Addr} {w w' : Multiset Ref}

theorem Fades.wellFormed (h : Fades s₀ t) (hs : Rep s₀) : Rep t where
  next_pos := h.next ▸ hs.next_pos
  block_null := (h.rep (.of_rep hs)).block_null
  byref_null := by
    by_contra hne
    obtain ⟨d, hd⟩ := Option.ne_none_iff_exists'.1 hne
    obtain ⟨c, _, hc, _⟩ := h.byref NULL d hd
    rw [hs.byref_null] at hc
    cases hc
  block_lt := (h.rep (.of_rep hs)).block_lt
  byref_lt := (h.rep (.of_rep hs)).byref_lt
  disjoint a d hd := by
    obtain ⟨c, _, hc, _⟩ := h.block a d hd
    by_contra hne
    obtain ⟨e, he⟩ := Option.ne_none_iff_exists'.1 hne
    obtain ⟨c', _, hc', _⟩ := h.byref a e he
    rw [hs.disjoint a c hc] at hc'
    cases hc'
  block_ok := (h.rep (.of_rep hs)).block_ok
  byref_ok a d hd := by
    obtain ⟨c, w, hc, rfl, hw⟩ := h.byref a d hd
    by_cases hst : c.storage = .stack
    · have hkept := h.byref_kept a c hc (by rw [hst]; decide)
      rw [hd, Option.some.injEq] at hkept
      rw [hkept]
      exact hs.byref_ok a c hc
    · exact (hs.byref_ok a c hc).withFlags hw hst
  forwarding_lt a d hd := by
    obtain ⟨c, w, hc, rfl, _⟩ := h.byref a d hd
    rw [h.next]
    exact hs.forwarding_lt a c hc
  forwarding_inj v v' d d' hd hd' hst hst' hf := by
    obtain ⟨c, w, hc, rfl, _⟩ := h.byref v d hd
    obtain ⟨c', w', hc', rfl, _⟩ := h.byref v' d' hd'
    exact hs.forwarding_inj v v' c c' hc hc' hst hst' hf

/-- The variables in scope keep their references. -/
theorem Fades.scopeRefs (h : Fades s₀ t) (scope : Finset Addr) :
    scopeRefs t scope = scopeRefs s₀ scope := by
  refine Finset.sum_congr rfl fun v _ => ?_
  unfold scopeRef
  cases hc : s₀.byrefs v with
  | none =>
    cases hd : t.byrefs v with
    | none => rfl
    | some d =>
      obtain ⟨c, _, hc', _⟩ := h.byref v d hd
      rw [hc] at hc'
      cases hc'
  | some c =>
    by_cases hst : c.storage = .stack
    · rw [h.byref_kept v c hc (by rw [hst]; decide)]
    · simp only [hst, false_and, if_false]
      cases hd : t.byrefs v with
      | none => rfl
      | some d =>
        obtain ⟨c', _, hc', rfl, _⟩ := h.byref v d hd
        obtain rfl : c = c' := Option.some.inj (hc.symm.trans hc')
        simp only [ByrefCell.withFlags, hst, false_and, if_false]

/-- What the threads leave behind is as disciplined as what they found. -/
theorem Fades.disciplined (h : Fades s₀ t) (h₀ : Disciplined s₀ scope w)
    (hsound : Sound latched (External s₀) (sharedGraph t) (BlocksRuntime.scopeRefs s₀ scope' + w'))
    (hpositive : Positive (sharedGraph t))
    (hsettled : ∀ r x, recordAt t r = some x → ¬x.Dying) : Disciplined t scope' w' := by
  have hblock : ∀ a d, t.blocks a = some d → d.storage = .heap → d.Live := by
    intro a d hd hheap
    obtain ⟨c, w, hc, rfl, _⟩ := h.block a d hd
    have hl := (HeapRecord.live_or_dying (x := blockRecord (c.withFlags w)) hheap).resolve_right
      (hsettled _ _ (blockRecord_of hd))
    exact ⟨hheap, (h₀.settled_block a c hc hheap).2.1, hl.2⟩
  have hgraph := sharedGraph_eq_graphOf (h.wellFormed h₀.rep) fun a d hd hheap =>
    (hblock a d hd hheap).2.1
  rw [hgraph] at hsound hpositive
  exact {
    rep := h.wellFormed h₀.rep
    counted := by
      rw [Counted, h.scopeRefs, h.external]
      exact hsound
    positive := hpositive
    settled_block := hblock
    settled_byref := fun a d hd hheap =>
      (HeapRecord.live_or_dying (x := byrefRecord d) hheap).resolve_right
        (hsettled _ _ (byrefRecord_of hd)) }

end

/-! ## A machine -/

/-- One thread holds the copied block, the other ends the scope of the
variable that the block captures. -/
def sharing : Machine Bool where
  mem := copiedClient.mem
  workers i := ⟨[], if i then {.block 4} else {.byref 6}⟩

theorem sharing_start : Start copiedClient.mem sharing := by
  refine Disciplined.start (copied_run.disciplined plentiful_mallocOk) rfl (fun _ => rfl) ?_
  decide

/-- Both threads have made their calls. -/
def racing : Machine Bool :=
  (sharing.put true copiedClient.mem ⟨[.release 4], 0⟩).put false copiedClient.mem
    ⟨[.objectDispose 1 BLOCK_FIELD_IS_BYREF], 0⟩

theorem racing_run :
    sharing.Run [.call true (.release 4), .call false (.objectDispose 1 BLOCK_FIELD_IS_BYREF)]
      racing := by
  have hfirst : sharing.Step (.call true (.release 4))
      (sharing.put true copiedClient.mem ⟨[.release 4], 0⟩) :=
    .call true (.release 4) 0 rfl rfl rfl (le_rfl)
  exact (Machine.Run.step [] _ _ _ .start hfirst).step [.call true (.release 4)] _ _ _
    (.call false (.objectDispose 1 BLOCK_FIELD_IS_BYREF) 0 rfl rfl rfl (le_rfl))

/-- The threads take turns. -/
def turns : List Bool := (List.replicate 40 [true, false]).flatten

/-- Both threads are idle again. -/
def raced : Machine Bool :=
  match racing.schedule turns with
  | .ok m => m
  | .error _ => racing

theorem raced_run : ∃ acts, sharing.Run acts raced ∧
    callsOf acts = [.release 4, .objectDispose 1 BLOCK_FIELD_IS_BYREF] := by
  obtain ⟨acts, hrun, hcalls⟩ :=
    Machine.run_schedule (show racing.schedule turns = .ok raced from rfl)
  refine ⟨_, racing_run.append hrun, ?_⟩
  rw [callsOf, List.filterMap_append]
  exact congrArg (_ ++ ·) hcalls

theorem raced_idle (i : Bool) : (raced.workers i).stack = [] := by
  cases i <;> rfl

example : newEvents copiedClient.mem raced.mem =
    [.disposeHelper 202 4, .disposeHelper 102 5, .destructInstance 5, .freeBlock 5,
      .freeByref 6, .releaseObject 50, .destructInstance 4, .freeBlock 4] := rfl

end BlocksRuntime.Threads
