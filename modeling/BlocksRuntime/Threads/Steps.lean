import BlocksRuntime.Ownership.Growth
import BlocksRuntime.Threads.Fades

/-!
# One step of one activation

A step either leaves the shared ownership graph alone, or gives up one
reference, or takes one.

* `Deed` names the three, with what each does to the graph and to the
  references.
* `Frame.Ok` is what an activation relies on, and `Frame.todo` are the events
  that it still owes the record which it tears down.
* `Sane` is what a step relies on of the memory, and `Change` is all that a
  step does.
* `Frame.step_change` says that no step faults and that each is a `Change`.
-/

namespace BlocksRuntime.Threads

open Ownership RetryLoop

/-! ## Deeds -/

/-- What a step does to the counts. -/
inductive Deed where
  | quiet
  | drop (r : Ref)
  | acquire (r : Ref)
  deriving DecidableEq

namespace Deed

/-- The ownership graph after the step. -/
def graph : Deed → Graph Ref → Graph Ref
  | .quiet, g => g
  | .drop r, g => (g.drop latched r).1
  | .acquire r, g => g.acquire latched r

/-- The reference that is given up. -/
def spent : Deed → Multiset Ref
  | .drop r => {r}
  | _ => 0

/-- The references that become pending. -/
def pending : Deed → Graph Ref → Multiset Ref
  | .drop r, g => (g.drop latched r).2.1
  | _, _ => 0

/-- The reference that is taken. -/
def gained : Deed → Multiset Ref
  | .acquire r => {r}
  | _ => 0

/-- What objects hear of it. -/
def events : Deed → List Event
  | .drop (.object o) => [.releaseObject o]
  | .acquire (.object o) => [.retainObject o]
  | _ => []

end Deed

/-! ## Obligations -/

/-- The events of the deallocation of a record. -/
def deathOf (s : Mem) : Ref → List Event
  | .block a =>
    match s.blocks a with
    | some c => blockDeath a c
    | none => []
  | .byref a =>
    match s.byrefs a with
    | some c => byrefDeath a c
    | none => []
  | .object _ => []

/-- A record with a verdict.  The events in `todo` are outstanding. -/
def Condemned (s₀ s : Mem) (r : Ref) (todo : List Event) : Prop :=
  (∃ x, recordAt s r = some x ∧ x.Dying) ∧
    ∃ p, p ++ todo = deathOf s₀ r ∧ history r s.trace = history r s₀.trace ++ p

/-- A record that got its verdict and is freed. -/
def Gone (s₀ s : Mem) (r : Ref) : Prop :=
  recordAt s r = none ∧ history r s.trace = history r s₀.trace ++ deathOf s₀ r

namespace Frame

/-- What an activation relies on besides its references. -/
def Static (s₀ : Mem) : Frame → Prop
  | .objectDispose object flags =>
    (heldKind flags = .byref ∨ heldKind flags = .weakByref) → s₀.byrefs object ≠ none
  | .releaseNeedsFree aBlock => ¬External s₀ (.block aBlock)
  | .byrefRelease arg => s₀.byrefs arg ≠ none
  | .decrRead r => ¬External s₀ r
  | .decrSwap r a => ¬External s₀ r ∧ latchingDecrIntShouldDeallocate a.old = .cas a.new a.result
  | .byrefDestroy byref =>
    ∃ c, s₀.byrefs byref = some c ∧ c.byref.flags &&& BLOCK_BYREF_HAS_COPY_DISPOSE ≠ 0
  | .objectAssign object flags =>
    (heldKind flags = .byref ∨ heldKind flags = .weakByref) → s₀.byrefs object ≠ none
  | .copyIsGlobal aBlock => ∃ c, s₀.blocks aBlock = some c ∧ c.storage = .global
  | .byrefCopy arg => s₀.byrefs arg ≠ none
  | .byrefCopyNeedsFree arg => s₀.byrefs arg ≠ none
  | .byrefCopyReturn arg => s₀.byrefs arg ≠ none
  | .incrRead r => ¬External s₀ r
  | .incrSwap r a => ¬External s₀ r ∧ latchingIncrInt a.old = .cas a.new a.result
  | .leave _ => False
  | _ => True

/-- The events that an activation owes the record which it tears down. -/
def todo (s₀ : Mem) : Frame → List Event
  | .callDisposeHelper aBlock => deathOf s₀ (.block aBlock)
  | .destructInstance aBlock => [.destructInstance aBlock, .freeBlock aBlock]
  | .freeBlock aBlock => [.freeBlock aBlock]
  | .byrefHasDispose byref => deathOf s₀ (.byref byref)
  | .byrefDestroy byref => [.byrefDestroy byref, .freeByref byref]
  | .freeByref byref => [.freeByref byref]
  | _ => []

/-- What an activation relies on. -/
structure Ok (s₀ s : Mem) (f : Frame) : Prop where
  static : f.Static s₀
  condemned : ∀ r ∈ f.dying, Condemned s₀ s r (f.todo s₀)

end Frame

/-- What a step relies on of the memory. -/
structure Sane (s₀ s : Mem) : Prop where
  rep : SharedRep s₀
  fades : Fades s₀ s
  positive : Positive (sharedGraph s)
  /-- Nothing has happened to a record that is not dying. -/
  unhurt : ∀ r x, recordAt s r = some x → ¬x.Dying → history r s.trace = history r s₀.trace

/-- A reference that is counted. -/
def Target (s₀ s : Mem) (r : Ref) : Prop := (sharedGraph s).node r ≠ none ∨ External s₀ r

/-- What happens to a record that nobody tears down. -/
structure SameRecord (s t : Mem) (r : Ref) : Prop where
  none : recordAt s r = none → recordAt t r = none
  some : ∀ x, recordAt s r = some x → ∃ y, recordAt t r = some y ∧ (y.Dying ↔ x.Dying)
  events : (∀ o, r ≠ .object o) → history r t.trace = history r s.trace

/-- How the records in teardown change. -/
inductive Teardown (s₀ s t : Mem) (f : Frame) (gs : List Frame) : Prop where
  | same (h : stackDying gs = f.dying)
  | start (r : Ref) (x : HeapRecord) (hx : recordAt s r = some x) (hl : x.Live)
      (hf : f.dying = 0) (hgs : stackDying gs = {r})
  | finish (r : Ref) (hf : f.dying = {r}) (hgs : stackDying gs = 0) (h : Gone s₀ t r)

/-- All that a step does. -/
structure Change (s₀ s : Mem) (f : Frame) (gs : List Frame) (gained : Multiset Ref) (t : Mem)
    (d : Deed) : Prop where
  graph : sharedGraph t = d.graph (sharedGraph s)
  refs : ∃ w, f.refs s₀ = d.spent + w ∧ stackRefs s₀ gs = d.pending (sharedGraph s) + w
  gained : gained = d.gained
  borrowed : ∀ r ∈ d.gained, r ∈ f.borrowed s₀
  fades : Fades s t
  record : ∀ r, r ∉ f.dying → r ∉ stackDying gs → SameRecord s t r
  objects : ∀ o, history (.object o) t.trace =
    history (.object o) s.trace ++ history (.object o) d.events
  ok : ∀ g ∈ gs, g.Ok s₀ t ∧ ∀ r ∈ g.borrowed s₀, r ∈ f.borrowed s₀
  teardown : Teardown s₀ s t f gs

section

variable {s₀ s t : Mem} {f : Frame} {gs : List Frame} {gained : Multiset Ref} {d : Deed} {r q : Ref}
  {x : HeapRecord} {w : Flags} {v : Multiset Ref}

/-! ## The kinds of steps -/

theorem Frame.Ok.of_static (hd : f.dying = 0) (h : f.Static s₀) : f.Ok s₀ s where
  static := h
  condemned r hr := by
    rw [hd] at hr
    cases hr

theorem SameRecord.of_eq (h : recordAt t r = recordAt s r)
    (hh : (∀ o, r ≠ .object o) → history r t.trace = history r s.trace) : SameRecord s t r where
  none hn := h.trans hn
  some x hx := ⟨x, h.trans hx, Iff.rfl⟩
  events := hh

/-- A step that stores nothing. -/
theorem Change.still (hc : SameCells s t)
    (hrefs : ∃ w, f.refs s₀ = d.spent + w ∧ stackRefs s₀ gs = d.pending (sharedGraph s) + w)
    (hgraph : d.graph (sharedGraph s) = sharedGraph s)
    (hborrow : ∀ r ∈ d.gained, r ∈ f.borrowed s₀)
    (htrace : ∀ r, r ∉ f.dying → (∀ o, r ≠ .object o) → history r t.trace = history r s.trace)
    (hobj : ∀ o, history (.object o) t.trace =
      history (.object o) s.trace ++ history (.object o) d.events)
    (hok : ∀ g ∈ gs, g.Ok s₀ t ∧ ∀ r ∈ g.borrowed s₀, r ∈ f.borrowed s₀)
    (hdown : stackDying gs = f.dying) : Change s₀ s f gs d.gained t d where
  graph := hc.sharedGraph.trans hgraph.symm
  refs := hrefs
  gained := rfl
  borrowed := hborrow
  fades := hc.fades
  record r hr _ := .of_eq (by rw [hc.recordAt]) (htrace r hr)
  objects := hobj
  ok := hok
  teardown := .same hdown

/-- A step that changes nothing at all. -/
theorem Change.silent (hrefs : stackRefs s₀ gs = f.refs s₀) (hdown : stackDying gs = f.dying)
    (hok : ∀ g ∈ gs, g.Ok s₀ s ∧ ∀ r ∈ g.borrowed s₀, r ∈ f.borrowed s₀) :
    Change s₀ s f gs 0 s .quiet := by
  refine Change.still (d := .quiet) (.refl s) ⟨f.refs s₀, ?_, ?_⟩ rfl ?_ (fun _ _ _ => rfl) ?_ hok
    hdown
  · exact (zero_add _).symm
  · exact hrefs.trans (zero_add _).symm
  · exact fun r hr => absurd hr (Multiset.notMem_zero r)
  · exact fun o => (List.append_nil _).symm

/-- An activation goes on with the next one. -/
theorem Change.push {g : Frame} (hrefs : g.refs s₀ = f.refs s₀) (hdown : g.dying = f.dying)
    (hok : g.Ok s₀ s) (hb : ∀ r ∈ g.borrowed s₀, r ∈ f.borrowed s₀) :
    Change s₀ s f [g] 0 s .quiet := by
  refine .silent ?_ ?_ fun g' hg => ?_
  · simpa [stackRefs] using hrefs
  · simpa [stackDying] using hdown
  · rw [List.mem_singleton.1 hg]
    exact ⟨hok, hb⟩

/-- An activation returns without having done anything. -/
theorem Change.done (hrefs : f.refs s₀ = 0) (hdown : f.dying = 0) :
    Change s₀ s f [] 0 s .quiet :=
  .silent hrefs.symm hdown.symm fun _ hg => by cases hg

/-- A reference to an external name or a latched record is given up. -/
theorem Change.forget (hdrop : (sharedGraph s).drop latched r = (sharedGraph s, 0, v))
    (hrefs : f.refs s₀ = {r}) (hdown : f.dying = 0) (hr : ∀ o, r ≠ .object o) :
    Change s₀ s f [] 0 s (.drop r) := by
  refine Change.still (d := .drop r) (.refl s) ⟨0, ?_, ?_⟩ ?_ ?_ (fun _ _ _ => rfl) ?_
    (fun _ hg => by cases hg) hdown.symm
  · exact hrefs.trans (add_zero _).symm
  · simp [Deed.pending, hdrop, stackRefs]
  · simp [Deed.graph, hdrop]
  · exact fun q hq => absurd hq (Multiset.notMem_zero q)
  · intro o
    cases r with
    | object o' => exact absurd rfl (hr o')
    | block a => exact (List.append_nil _).symm
    | byref a => exact (List.append_nil _).symm

/-- A reference to an external name or a latched record is taken. -/
theorem Change.borrow (hacq : (sharedGraph s).acquire latched r = sharedGraph s)
    (hrefs : f.refs s₀ = 0) (hb : r ∈ f.borrowed s₀) (hdown : f.dying = 0)
    (hr : ∀ o, r ≠ .object o) : Change s₀ s f [] {r} s (.acquire r) := by
  refine Change.still (d := .acquire r) (.refl s) ⟨0, ?_, rfl⟩ hacq ?_ (fun _ _ _ => rfl) ?_
    (fun _ hg => by cases hg) hdown.symm
  · exact hrefs
  · intro q hq
    rw [Multiset.mem_singleton.1 hq]
    exact hb
  · intro o
    cases r with
    | object o' => exact absurd rfl (hr o')
    | block a => exact (List.append_nil _).symm
    | byref a => exact (List.append_nil _).symm

/-- The other records while one record gets another word or is freed. -/
theorem sameRecord_setWord (hq : q ≠ r) : SameRecord s (Mem.setWord s r w) q :=
  .of_eq (recordAt_setWord_ne hq) fun _ => by rw [setWord_trace]

/-- A live record stays live. -/
theorem sameRecord_setWord_self (hx : recordAt s r = some x) (hl : x.Live)
    (hlive : HeapRecord.Live { x with word := w }) : SameRecord s (Mem.setWord s r w) r where
  none hn := by
    rw [hn] at hx
    cases hx
  some y hy := by
    obtain rfl : x = y := Option.some.inj (hx.symm.trans hy)
    exact ⟨_, recordAt_setWord_self hx, fun hd => absurd hd hlive.not_dying,
      fun hd => absurd hd hl.not_dying⟩
  events _ := by rw [setWord_trace]

/-- One of several references is given up. -/
theorem Change.lower (hrep : SharedRep s) (hx : recordAt s r = some x) (hl : x.Live)
    (hm : SameMeta w x.word) (hcount : refcount x.word = refcount w + 1)
    (hlatch : refcount x.word ≠ latched) (hmany : 0 < refcount w) (hrefs : f.refs s₀ = {r})
    (hdown : f.dying = 0) : Change s₀ s f [] 0 (Mem.setWord s r w) (.drop r) where
  graph := by
    have hlive : HeapRecord.Live { x with word := w } := ⟨hl.1, hm.dealloc.trans hl.2⟩
    rw [Deed.graph, Graph.drop_shared (hrep.node hx hl) hlatch (by simp [HeapRecord.node]; omega),
      sharedGraph_setWord_live hx (hrep.lt hx) hlive]
    simp only [HeapRecord.node, hcount, Nat.add_sub_cancel]
  refs := by
    refine ⟨0, hrefs.trans (add_zero _).symm, ?_⟩
    rw [Deed.pending, Graph.drop_shared (hrep.node hx hl) hlatch (by simp [HeapRecord.node]; omega)]
    rfl
  gained := rfl
  borrowed q hq := absurd hq (Multiset.notMem_zero q)
  fades := fades_setWord hx hl.1 hm.high
  record q _ _ := by
    by_cases hq : q = r
    · subst hq
      exact sameRecord_setWord_self hx hl ⟨hl.1, hm.dealloc.trans hl.2⟩
    · exact sameRecord_setWord hq
  objects o := by
    rw [setWord_trace]
    cases r with
    | object o' => cases hx
    | block a => exact (List.append_nil _).symm
    | byref a => exact (List.append_nil _).symm
  ok _ hg := by cases hg
  teardown := .same hdown.symm

/-- What goes on after a verdict. -/
theorem verdict_spec (s₀ : Mem) (hx : recordAt s r = some x) :
    ∃ g, verdict r = [g] ∧ g.Static s₀ ∧ g.dying = {r} ∧ g.todo s₀ = deathOf s₀ r ∧
      g.refs s₀ = Frame.ownsOf s₀ r ∧ g.borrowed s₀ = 0 := by
  cases r with
  | block a => exact ⟨.callDisposeHelper a, rfl, trivial, rfl, rfl, rfl, rfl⟩
  | byref a => exact ⟨.byrefHasDispose a, rfl, trivial, rfl, rfl, rfl, rfl⟩
  | object o => cases hx

/-- The last reference is given up. -/
theorem Change.condemn (hs : Sane s₀ s) (hx : recordAt s r = some x) (hl : x.Live)
    (hone : refcount x.word = 1) (hdead : isDeallocating w = true) (hhigh : high w = high x.word)
    (hrefs : f.refs s₀ = {r}) (hdown : f.dying = 0) :
    Change s₀ s f (verdict r) 0 (Mem.setWord s r w) (.drop r) := by
  obtain ⟨g, hv, hstatic, hdying, htodo, hgrefs, hborrow⟩ := verdict_spec s₀ hx
  have hnode := (hs.fades.rep hs.rep).node hx hl
  have hlatch : refcount x.word ≠ latched := by
    rw [hone]
    decide
  have hd : HeapRecord.Dying { x with word := w } := ⟨hl.1, hdead⟩
  have hstack : stackDying (verdict r) = {r} := by simp [hv, stackDying, hdying]
  exact {
    graph := by
      rw [Deed.graph, Graph.drop_last hnode hlatch hone]
      exact sharedGraph_setWord_dying hx hd
    refs := by
      refine ⟨0, hrefs.trans (add_zero _).symm, ?_⟩
      rw [Deed.pending, Graph.drop_last hnode hlatch hone, hv]
      simp [stackRefs, hgrefs, hs.fades.ownsOf hx, HeapRecord.node]
    gained := rfl
    borrowed := fun q hq => absurd hq (Multiset.notMem_zero q)
    fades := fades_setWord hx hl.1 hhigh
    record := fun q _ hq => by
      rw [hstack, Multiset.mem_singleton] at hq
      exact sameRecord_setWord hq
    objects := fun o => by
      rw [setWord_trace]
      cases r with
      | object o' => cases hx
      | block a => exact (List.append_nil _).symm
      | byref a => exact (List.append_nil _).symm
    ok := fun g' hg => by
      rw [hv, List.mem_singleton] at hg
      subst hg
      refine ⟨⟨hstatic, fun q hq => ?_⟩, fun q hq => ?_⟩
      · rw [hdying, Multiset.mem_singleton] at hq
        subst hq
        refine ⟨⟨_, recordAt_setWord_self hx, hd⟩, [], htodo, ?_⟩
        rw [setWord_trace, hs.unhurt q x hx hl.not_dying, List.append_nil]
      · rw [hborrow] at hq
        exact absurd hq (Multiset.notMem_zero q)
    teardown := .start r x hx hl hdown hstack }

/-- One more reference to a live record is taken. -/
theorem Change.raise (hrep : SharedRep s) (hx : recordAt s r = some x) (hl : x.Live)
    (hm : SameMeta w x.word) (hcount : refcount w = refcount x.word + 1)
    (hlatch : refcount x.word ≠ latched) (hrefs : f.refs s₀ = 0) (hb : r ∈ f.borrowed s₀)
    (hdown : f.dying = 0) : Change s₀ s f [] {r} (Mem.setWord s r w) (.acquire r) where
  graph := by
    have hlive : HeapRecord.Live { x with word := w } := ⟨hl.1, hm.dealloc.trans hl.2⟩
    rw [Deed.graph, Graph.acquire_of_ne (hrep.node hx hl) hlatch,
      sharedGraph_setWord_live hx (hrep.lt hx) hlive]
    simp only [HeapRecord.node, hcount]
  refs := ⟨0, hrefs, rfl⟩
  gained := rfl
  borrowed q hq := by
    rw [Multiset.mem_singleton.1 hq]
    exact hb
  fades := fades_setWord hx hl.1 hm.high
  record q _ _ := by
    by_cases hq : q = r
    · subst hq
      exact sameRecord_setWord_self hx hl ⟨hl.1, hm.dealloc.trans hl.2⟩
    · exact sameRecord_setWord hq
  objects o := by
    rw [setWord_trace]
    cases r with
    | object o' => cases hx
    | block a => exact (List.append_nil _).symm
    | byref a => exact (List.append_nil _).symm
  ok _ hg := by cases hg
  teardown := .same hdown.symm

theorem history_log_ne {e : Event} (he : e.subject ≠ r) :
    history r (s.log e).trace = history r s.trace := by
  rw [Mem.log_trace, history_append, history_single, if_neg he, List.append_nil]

theorem history_log_self {e : Event} (he : e.subject = r) :
    history r (s.log e).trace = history r s.trace ++ [e] := by
  rw [Mem.log_trace, history_append, history_single, if_pos he]

/-- A record is freed. -/
theorem Change.free {e : Event} (hx : recordAt s r = some x) (hd : x.Dying) (he : e.subject = r)
    (htodo : Condemned s₀ s r [e]) (hrefs : f.refs s₀ = 0) (hdown : f.dying = {r}) :
    Change s₀ s f [] 0 ((Mem.eraseRecord s r).log e) .quiet where
  graph := ((SameCells.log _ e).sharedGraph).trans (sharedGraph_eraseRecord hx hd)
  refs := ⟨0, hrefs, rfl⟩
  gained := rfl
  borrowed q hq := absurd hq (Multiset.notMem_zero q)
  fades := (fades_erase hx hd.1).trans (SameCells.log _ e).fades
  record q hq _ := by
    rw [hdown, Multiset.mem_singleton] at hq
    refine .of_eq ?_ fun _ => ?_
    · rw [(SameCells.log _ e).recordAt, recordAt_erase_ne hq]
    · rw [history_log_ne fun h => hq (h.symm.trans he), eraseRecord_trace]
  objects o := by
    have ho : e.subject ≠ .object o := fun h => by
      rw [← he, h] at hx
      cases hx
    rw [history_log_ne ho, eraseRecord_trace]
    exact (List.append_nil _).symm
  ok _ hg := by cases hg
  teardown := by
    refine .finish r hdown rfl ⟨?_, ?_⟩
    · rw [(SameCells.log _ e).recordAt, recordAt_erase_self]
    · obtain ⟨_, p, hp, hh⟩ := htodo
      rw [history_log_self he, eraseRecord_trace, hh, List.append_assoc, hp]

/-- A step of a teardown that logs an event. -/
theorem Change.tear {e : Event} (he : e.subject = r) (hx : recordAt s r ≠ none)
    (hdown : f.dying = {r}) (hgs : stackDying gs = {r}) (hrefs : stackRefs s₀ gs = f.refs s₀)
    (hok : ∀ g ∈ gs, g.Ok s₀ (s.log e) ∧ ∀ r ∈ g.borrowed s₀, r ∈ f.borrowed s₀) :
    Change s₀ s f gs 0 (s.log e) .quiet := by
  refine Change.still (d := .quiet) (.log s e) ⟨f.refs s₀, ?_, ?_⟩ rfl ?_ ?_ ?_ hok
    (hgs.trans hdown.symm)
  · exact (zero_add _).symm
  · exact hrefs.trans (zero_add _).symm
  · exact fun r hr => absurd hr (Multiset.notMem_zero r)
  · intro q hq _
    rw [hdown, Multiset.mem_singleton] at hq
    exact history_log_ne fun h => hq (h.symm.trans he)
  · intro o
    have ho : e.subject ≠ .object o := fun h => by
      rw [← he, h] at hx
      exact hx rfl
    rw [history_log_ne ho]
    exact (List.append_nil _).symm

/-- One event of a teardown is done. -/
theorem Condemned.log {e : Event} {todo : List Event} (h : Condemned s₀ s r (e :: todo))
    (he : e.subject = r) : Condemned s₀ (s.log e) r todo := by
  refine ⟨?_, ?_⟩
  · rw [(SameCells.log s e).recordAt]
    exact h.1
  · obtain ⟨_, p, hp, hh⟩ := h
    refine ⟨p ++ [e], ?_, ?_⟩
    · rw [List.append_assoc]
      exact hp
    · rw [history_log_self he, hh, List.append_assoc]

end

end BlocksRuntime.Threads
