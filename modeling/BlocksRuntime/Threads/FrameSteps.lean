import BlocksRuntime.Threads.Steps

/-!
# The steps of the runtime functions

No step of an activation faults, and each is a `Change`.

* `Target.live` and `Target.block_cases` say what a counted reference is to.
* One lemma for each program counter, in the order of `Frame.step`.
* `Frame.step_change` puts them together.
-/

namespace BlocksRuntime.Threads

open Ownership RetryLoop

/-- The next step of an activation is a `Change`. -/
def Frame.Goes (s₀ s : Mem) (f : Frame) : Prop :=
  ∃ gs gained t d, f.step s = .ok ((gs, gained), t) ∧ Change s₀ s f gs gained t d

section

variable {s₀ s : Mem} {r : Ref} {a b p v : Addr} {flags : Flags}

/-! ## Counted references -/

/-- A counted reference that is not external is to a live record. -/
theorem Target.live (hs : Sane s₀ s) (h : Target s₀ s r) (hne : ¬External s₀ r) :
    ∃ x, recordAt s r = some x ∧ x.Live ∧ 0 < refcount x.word := by
  obtain ⟨n, hn⟩ := Option.ne_none_iff_exists'.1 (h.resolve_right hne)
  obtain ⟨x, hx, _, hl, rfl⟩ := sharedNode_some hn
  exact ⟨x, hx, hl, hs.positive r _ hn⟩

/-- A counted block reference. -/
theorem Target.block_cases (hs : Sane s₀ s) (h : Target s₀ s (.block a)) :
    a = NULL ∨ (∃ c, s.blocks a = some c ∧ c.storage = .global) ∨
      (∃ c, s.blocks a = some c ∧ (blockRecord c).Live ∧ ¬External s₀ (.block a)) := by
  by_cases hext : External s₀ (.block a)
  · rcases hext with hnull | ⟨c, hc, hg⟩
    · exact Or.inl hnull
    · exact Or.inr (Or.inl ⟨c, hs.fades.block_kept a c hc (by rw [hg]; decide), hg⟩)
  · obtain ⟨x, hx, hl, _⟩ := h.live hs hext
    obtain ⟨c, hc, rfl⟩ := Option.map_eq_some_iff.1 hx
    exact Or.inr (Or.inr ⟨c, hc, hl, hext⟩)

/-- A counted reference to a `__block` record. -/
theorem Target.byref (hs : Sane s₀ s) (h : Target s₀ s (.byref p)) :
    ∃ c, s.byrefs p = some c ∧ (byrefRecord c).Live ∧ 0 < refcount c.byref.flags := by
  obtain ⟨x, hx, hl, hpos⟩ := h.live hs id
  obtain ⟨c, hc, rfl⟩ := Option.map_eq_some_iff.1 hx
  exact ⟨c, hc, hl, hpos⟩

/-- A variable whose heap copy is counted can be read. -/
theorem Target.variable (hs : Sane s₀ s) (hv : s₀.byrefs v ≠ none)
    (h : Target s₀ s (.byref (forwardOf s₀ v))) :
    ∃ c, s.byrefs v = some c ∧ c.byref.forwarding = forwardOf s₀ v := by
  obtain ⟨c, hc⟩ := Option.ne_none_iff_exists'.1 hv
  have hread : ∃ d, s.byrefs v = some d := by
    by_cases hheap : c.storage = .heap
    · rw [forwardOf_some hc, (hs.rep.byref_ok v c hc).heap hheap] at h
      obtain ⟨d, hd, _⟩ := h.byref hs
      exact ⟨d, hd⟩
    · exact ⟨c, hs.fades.byref_kept v c hc hheap⟩
  obtain ⟨d, hd⟩ := hread
  exact ⟨d, hd, (hs.fades.forwardOf hd).symm⟩

/-- A counted heap record forwards to itself. -/
theorem Target.forwardOf_self (hs : Sane s₀ s) (h : Target s₀ s (.byref p)) :
    forwardOf s₀ p = p ∧ s₀.byrefs p ≠ none := by
  obtain ⟨d, hd, hl, _⟩ := h.byref hs
  obtain ⟨c, w, hc, rfl, _⟩ := hs.fades.byref p d hd
  refine ⟨?_, hc ▸ Option.some_ne_none c⟩
  rw [forwardOf_some hc]
  exact (hs.rep.byref_ok p c hc).heap hl.1

/-- An external name has no node. -/
theorem sharedNode_external (hs : Sane s₀ s) (h : External s₀ r) : sharedNode s r = none := by
  cases r with
  | block a =>
    rcases h with rfl | ⟨c, hc, hg⟩
    · exact sharedNode_none (by simp [recordAt, (hs.fades.rep hs.rep).block_null])
    · have hc' := hs.fades.block_kept a c hc (by rw [hg]; decide)
      refine sharedNode_not_live (blockRecord_of hc') fun hl => ?_
      have hheap : c.storage = .heap := hl.1
      rw [hg] at hheap
      cases hheap
  | byref a => exact h.elim
  | object o => exact sharedNode_none rfl

theorem drop_external (hs : Sane s₀ s) (h : External s₀ r) :
    (sharedGraph s).drop latched r = (sharedGraph s, 0, {r}) :=
  Graph.drop_outer (sharedNode_external hs h)

theorem acquire_external (hs : Sane s₀ s) (h : External s₀ r) :
    (sharedGraph s).acquire latched r = sharedGraph s := by
  unfold Graph.acquire
  rw [sharedGraph_node, sharedNode_external hs h]

/-! ## Objects -/

theorem history_log_object {o : Addr} {e : Event} (he : e.subject = .object o)
    (hr : ∀ o, r ≠ .object o) : history r (s.log e).trace = history r s.trace :=
  history_log_ne fun h => hr o (h.symm.trans he)

/-- An object is released. -/
theorem Change.releaseObject {f : Frame} {o : Addr} (hs : Sane s₀ s)
    (hrefs : f.refs s₀ = {.object o}) (hdown : f.dying = 0) :
    Change s₀ s f [] 0 (s.log (.releaseObject o)) (.drop (.object o)) := by
  have hdrop := drop_external (r := .object o) hs trivial
  refine Change.still (d := .drop (.object o)) (.log s _) ⟨0, ?_, ?_⟩ ?_ ?_
    (fun _ _ => history_log_object rfl) ?_ (fun _ hg => by cases hg) hdown.symm
  · exact hrefs.trans (add_zero _).symm
  · simp [Deed.pending, hdrop, stackRefs]
  · simp [Deed.graph, hdrop]
  · exact fun q hq => absurd hq (Multiset.notMem_zero q)
  · exact fun o' => history_append _ _ _

/-- An object is retained. -/
theorem Change.retainObject {f : Frame} {o : Addr} (hs : Sane s₀ s) (hrefs : f.refs s₀ = 0)
    (hb : .object o ∈ f.borrowed s₀) (hdown : f.dying = 0) :
    Change s₀ s f [] {.object o} (s.log (.retainObject o)) (.acquire (.object o)) := by
  refine Change.still (d := .acquire (.object o)) (.log s _) ⟨0, hrefs, rfl⟩
    (acquire_external (r := .object o) hs trivial) ?_ (fun _ _ => history_log_object rfl) ?_
    (fun _ hg => by cases hg) hdown.symm
  · intro q hq
    rw [Multiset.mem_singleton.1 hq]
    exact hb
  · exact fun o' => history_append _ _ _

/-! ## Giving up -/

theorem objectDispose_goes {object : Addr} (hs : Sane s₀ s)
    (hok : (Frame.objectDispose object flags).Ok s₀ s) :
    (Frame.objectDispose object flags).Goes s₀ s := by
  have hbyref : heldKind flags = .byref ∨ heldKind flags = .weakByref → s₀.byrefs object ≠ none :=
    hok.static
  cases hk : heldKind flags with
  | plain =>
    refine ⟨[], 0, s, .quiet, by simp [Frame.step, hk], Change.done ?_ rfl⟩
    simp [Frame.refs, heldRefs, hk]
  | object =>
    refine ⟨[], 0, s.log (.releaseObject object), _,
      by simp [Frame.step, hk, bind_ok (log_apply _ _)], Change.releaseObject hs ?_ rfl⟩
    simp [Frame.refs, heldRefs, hk]
  | block =>
    refine ⟨[.release object], 0, s, .quiet, by simp [Frame.step, hk],
      Change.push ?_ rfl (.of_static rfl trivial) fun _ hr => by cases hr⟩
    simp [Frame.refs, heldRefs, hk]
  | byref =>
    refine ⟨[.byrefRelease object], 0, s, .quiet, by simp [Frame.step, hk],
      Change.push ?_ rfl (.of_static rfl (hbyref (Or.inl hk))) fun _ hr => by cases hr⟩
    simp [Frame.refs, heldRefs, hk]
  | weakByref =>
    refine ⟨[.byrefRelease object], 0, s, .quiet, by simp [Frame.step, hk],
      Change.push ?_ rfl (.of_static rfl (hbyref (Or.inr hk))) fun _ hr => by cases hr⟩
    simp [Frame.refs, heldRefs, hk]

theorem release_goes (hs : Sane s₀ s) (ht : Target s₀ s (.block a)) :
    (Frame.release a).Goes s₀ s := by
  have hrep := hs.fades.rep hs.rep
  by_cases hnull : a = NULL
  · refine ⟨[], 0, s, .drop (.block a), ?_, .forget (drop_external hs (Or.inl hnull)) rfl rfl
      fun _ ho => by cases ho⟩
    rw [Frame.step, if_pos hnull]
    rfl
  rcases ht.block_cases hs with hn | ⟨c, hc, hg⟩ | ⟨c, hc, hl, hext⟩
  · exact absurd hn hnull
  · have hext : External s₀ (.block a) := by
      rw [← hs.fades.external]
      exact Or.inr ⟨c, hc, hg⟩
    refine ⟨[], 0, s, .drop (.block a), ?_, .forget (drop_external hs hext) rfl rfl
      fun _ ho => by cases ho⟩
    rw [Frame.step, if_neg hnull, bind_ok (loadBlock_ok hc),
      if_pos ((hrep.block_ok a c hc).isGlobal.2 hg)]
    rfl
  · have hglobal : ¬(c.layout.flags &&& BLOCK_IS_GLOBAL ≠ 0) := fun h => by
      have hg := (hrep.block_ok a c hc).isGlobal.1 h
      rw [show c.storage = .heap from hl.1] at hg
      cases hg
    refine ⟨[.releaseNeedsFree a], 0, s, .quiet, ?_,
      .push rfl rfl (.of_static rfl hext) fun _ hr => hr⟩
    rw [Frame.step, if_neg hnull, bind_ok (loadBlock_ok hc), if_neg hglobal]
    rfl

theorem releaseNeedsFree_goes (hs : Sane s₀ s) (hok : (Frame.releaseNeedsFree a).Ok s₀ s)
    (ht : Target s₀ s (.block a)) : (Frame.releaseNeedsFree a).Goes s₀ s := by
  obtain ⟨x, hx, hl, _⟩ := ht.live hs hok.static
  obtain ⟨c, hc, rfl⟩ := Option.map_eq_some_iff.1 hx
  have hheap := ((hs.fades.rep hs.rep).block_ok a c hc).needsFree.2 hl.1
  refine ⟨[.decrRead (.block a)], 0, s, .quiet, ?_,
    .push rfl rfl (.of_static rfl hok.static) fun _ hr => hr⟩
  rw [Frame.step, bind_ok (loadBlock_ok hc), if_neg hheap]
  rfl

theorem byrefRelease_goes (hs : Sane s₀ s) (hok : (Frame.byrefRelease v).Ok s₀ s)
    (ht : Target s₀ s (.byref (forwardOf s₀ v))) : (Frame.byrefRelease v).Goes s₀ s := by
  obtain ⟨c, hc, hf⟩ := ht.variable hs hok.static
  refine ⟨[.byrefReleaseNeedsFree c.byref.forwarding], 0, s, .quiet, ?_,
    .push ?_ rfl (.of_static rfl trivial) fun _ hr => hr⟩
  · rw [Frame.step, bind_ok (loadByref_ok hc)]
    rfl
  · rw [Frame.refs, Frame.refs, hf]

theorem byrefReleaseNeedsFree_goes (hs : Sane s₀ s) (ht : Target s₀ s (.byref p)) :
    (Frame.byrefReleaseNeedsFree p).Goes s₀ s := by
  obtain ⟨c, hc, hl, _⟩ := ht.byref hs
  have hheap := ((hs.fades.rep hs.rep).byref_ok p c hc).needsFree.2 hl.1
  refine ⟨[.byrefReleaseAssert p], 0, s, .quiet, ?_,
    .push rfl rfl (.of_static rfl trivial) fun _ hr => hr⟩
  rw [Frame.step, bind_ok (loadByref_ok hc), if_pos hheap]
  rfl

/-- The assertion of `_Block_byref_release` holds. -/
theorem byrefReleaseAssert_goes (hs : Sane s₀ s) (ht : Target s₀ s (.byref p)) :
    (Frame.byrefReleaseAssert p).Goes s₀ s := by
  obtain ⟨c, hc, _, hpos⟩ := ht.byref hs
  have hcount : ¬(c.byref.flags &&& BLOCK_REFCOUNT_MASK = 0) := fun h =>
    hpos.ne' ((and_refcount_mask_eq_zero _).1 h)
  refine ⟨[.decrRead (.byref p)], 0, s, .quiet, ?_,
    .push rfl rfl (.of_static rfl id) fun _ hr => hr⟩
  rw [Frame.step, bind_ok (loadByref_ok hc), if_neg hcount]
  rfl

theorem decrRead_goes (hs : Sane s₀ s) (hok : (Frame.decrRead r).Ok s₀ s)
    (ht : Target s₀ s r) : (Frame.decrRead r).Goes s₀ s := by
  obtain ⟨x, hx, hl, hpos⟩ := ht.live hs hok.static
  have hnode := (hs.fades.rep hs.rep).node hx hl
  cases hd : latchingDecrIntShouldDeallocate x.word with
  | exit result =>
    -- latched high: the reference is forgotten
    obtain ⟨rfl, hlatch | hzero⟩ := decr_exit hd
    · refine ⟨[], 0, s, .drop r, ?_, .forget (Graph.drop_latched hnode hlatch) rfl rfl ?_⟩
      · rw [Frame.step, bind_ok (loadWord_ok hx), hd]
        rfl
      · rintro o rfl
        cases hx
    · exact absurd hzero hpos.ne'
  | cas newValue result =>
    refine ⟨[.decrSwap r ⟨x.word, newValue, result⟩], 0, s, .quiet, ?_,
      .push rfl rfl (.of_static rfl ⟨hok.static, hd⟩) fun _ hr => hr⟩
    rw [Frame.step, bind_ok (loadWord_ok hx), hd]
    rfl

theorem decrSwap_goes {a : Swap Flags Bool} (hs : Sane s₀ s) (hok : (Frame.decrSwap r a).Ok s₀ s)
    (ht : Target s₀ s r) : (Frame.decrSwap r a).Goes s₀ s := by
  obtain ⟨hext, hd⟩ := hok.static
  obtain ⟨x, hx, hl, hpos⟩ := ht.live hs hext
  have hstep : (Frame.decrSwap r a).step s = (if x.word = a.old then do
      storeWord r a.new
      return (afterDecr r a.result, 0)
    else return ([.decrRead r], 0) : M (List Frame × Multiset Ref)) s := by
    rw [Frame.step, bind_ok (loadWord_ok hx)]
  by_cases hw : x.word = a.old
  · -- the swap succeeds
    rw [if_pos hw, bind_ok (storeWord_ok hx _)] at hstep
    rw [← hw] at hd
    obtain ⟨hlatch, ⟨hr, hone, _, _, hdead, hhigh⟩ | ⟨hr, hcount, hnot, hm⟩⟩ := decr_cas hd
    · rw [hr] at hstep
      exact ⟨_, _, _, _, hstep, .condemn hs hx hl hone hdead hhigh rfl rfl⟩
    · have hone : refcount x.word ≠ 1 := fun h => hnot ⟨h, hl.2⟩
      rw [hr] at hstep
      exact ⟨_, _, _, _, hstep,
        .lower (hs.fades.rep hs.rep) hx hl hm hcount hlatch (by omega) rfl rfl⟩
  · -- another thread was faster
    rw [if_neg hw] at hstep
    exact ⟨_, _, _, _, hstep, .push rfl rfl (.of_static rfl hext) fun _ hr => hr⟩

/-! ## Tearing down -/

theorem disposeFields_goes {xs : List Capture} (hs : Sane s₀ s)
    (ht : ∀ r ∈ ownedRefs xs, Target s₀ s r) : (Frame.disposeFields xs).Goes s₀ s := by
  cases xs with
  | nil => exact ⟨[], 0, s, .quiet, rfl, .done rfl rfl⟩
  | cons x xs =>
    have hx : ∀ r ∈ x.refs, Target s₀ s r := fun r hr =>
      ht r (by rw [ownedRefs]; exact Multiset.mem_add.2 (Or.inl hr))
    cases hk : x.kind.flags with
    | none =>
      refine ⟨[.disposeFields xs], 0, s, .quiet, by simp [Frame.step, hk],
        .push ?_ rfl (.of_static rfl trivial) fun _ hr => hr⟩
      rw [Frame.refs, Frame.refs, ownedRefs, Capture.refs, FieldKind.eq_plain hk, zero_add]
    | some flags =>
      have hkind := heldKind_flags hk
      -- the captured records live on the heap, so they forward to themselves
      have hbyref : x.kind = .byref ∨ x.kind = .weakByref →
          forwardOf s₀ x.value = x.value ∧ s₀.byrefs x.value ≠ none := fun h => by
        refine (hx (.byref x.value) ?_).forwardOf_self hs
        rcases h with h | h <;> simp [Capture.refs, h]
      have hheld : heldRefs s₀ x.value flags = x.refs := by
        rw [heldRefs, hkind, Capture.refs]
        cases h : x.kind with
        | byref => simp [(hbyref (Or.inl h)).1]
        | weakByref => simp [(hbyref (Or.inr h)).1]
        | _ => rfl
      refine ⟨[.objectDispose x.value flags, .disposeFields xs], 0, s, .quiet,
        by simp [Frame.step, hk], .silent ?_ rfl fun g hg => ?_⟩
      · simp [stackRefs, Frame.refs, hheld, ownedRefs]
      · simp only [List.mem_cons, List.not_mem_nil, or_false] at hg
        rcases hg with rfl | rfl
        · refine ⟨.of_static rfl fun h => (hbyref ?_).2, fun _ hr => hr⟩
          rwa [hkind] at h
        · exact ⟨.of_static rfl trivial, fun _ hr => hr⟩

/-- The cell of a condemned block. -/
theorem Condemned.block {todo : List Event} (h : Condemned s₀ s (.block a) todo) :
    ∃ c, s.blocks a = some c ∧ (blockRecord c).Dying := by
  obtain ⟨⟨x, hx, hd⟩, _⟩ := h
  obtain ⟨c, hc, rfl⟩ := Option.map_eq_some_iff.1 hx
  exact ⟨c, hc, hd⟩

theorem Condemned.byref {todo : List Event} (h : Condemned s₀ s (.byref p) todo) :
    ∃ c, s.byrefs p = some c ∧ (byrefRecord c).Dying := by
  obtain ⟨⟨x, hx, hd⟩, _⟩ := h
  obtain ⟨c, hc, rfl⟩ := Option.map_eq_some_iff.1 hx
  exact ⟨c, hc, hd⟩

/-- What a block owes, read off its cell. -/
theorem deathOf_block (hs : Sane s₀ s) {c : BlockCell} (hc : s.blocks a = some c) :
    deathOf s₀ (.block a) = blockDeath a c := by
  obtain ⟨c₀, w, hc₀, rfl, hw⟩ := hs.fades.block a c hc
  have hm := and_eq_of_high_eq hw BLOCK_HAS_COPY_DISPOSE (by decide)
  simp [deathOf, hc₀, blockDeath, blockDescriptor2, BlockCell.withFlags, hm]

theorem deathOf_byref (hs : Sane s₀ s) {c : ByrefCell} (hc : s.byrefs p = some c) :
    deathOf s₀ (.byref p) = byrefDeath p c := by
  obtain ⟨c₀, w, hc₀, rfl, hw⟩ := hs.fades.byref p c hc
  have hm := and_eq_of_high_eq hw BLOCK_BYREF_HAS_COPY_DISPOSE (by decide)
  simp [deathOf, hc₀, byrefDeath, ByrefCell.withFlags, hm]

theorem callDisposeHelper_goes (hs : Sane s₀ s) (hok : (Frame.callDisposeHelper a).Ok s₀ s) :
    (Frame.callDisposeHelper a).Goes s₀ s := by
  have hcond := hok.condemned (.block a) (Multiset.mem_singleton_self _)
  obtain ⟨c, hc, _⟩ := hcond.block
  have hrep := hs.fades.rep hs.rep
  have howns : Frame.ownsOf s₀ (.block a) = ownedRefs c.layout.captured :=
    hs.fades.ownsOf (blockRecord_of hc)
  rw [Frame.todo, deathOf_block hs hc] at hcond
  cases hd : blockDescriptor2 c.layout with
  | none =>
    rw [blockDeath, hd] at hcond
    refine ⟨[.destructInstance a], 0, s, .quiet, ?_, .push ?_ rfl ⟨trivial, fun r hr => ?_⟩
      fun _ hr => hr⟩
    · rw [Frame.step, bind_ok (loadBlock_ok hc), hd]
      rfl
    · show 0 = Frame.ownsOf s₀ (.block a)
      rw [howns, hrep.block_plain hc hd]
    · rw [Multiset.mem_singleton.1 hr]
      exact hcond
  | some desc =>
    rw [blockDeath, hd] at hcond
    refine ⟨[.disposeFields c.layout.captured, .destructInstance a], 0,
      s.log (.disposeHelper (desc.getD 1 0) a), .quiet, ?_,
      .tear (r := .block a) rfl (by simp [recordAt, hc]) rfl ?_ ?_ fun g hg => ?_⟩
    · rw [Frame.step, bind_ok (loadBlock_ok hc), hd]
      simp only
      rw [bind_ok (wordAt_ok (hrep.block_word hc hd) _), bind_ok (log_apply _ _)]
      rfl
    · simp [stackDying, Frame.dying]
    · simp [stackRefs, Frame.refs, howns]
    · simp only [List.mem_cons, List.not_mem_nil, or_false] at hg
      rcases hg with rfl | rfl
      · exact ⟨.of_static rfl trivial, fun _ hr => hr⟩
      · refine ⟨⟨trivial, fun r hr => ?_⟩, fun _ hr => hr⟩
        rw [Multiset.mem_singleton.1 hr]
        exact hcond.log rfl

theorem destructInstance_goes (hok : (Frame.destructInstance a).Ok s₀ s) :
    (Frame.destructInstance a).Goes s₀ s := by
  have hcond := hok.condemned (.block a) (Multiset.mem_singleton_self _)
  obtain ⟨c, hc, _⟩ := hcond.block
  refine ⟨[.freeBlock a], 0, s.log (.destructInstance a), .quiet, rfl,
    .tear (r := .block a) rfl (by simp [recordAt, hc]) rfl ?_ ?_ fun g hg => ?_⟩
  · simp [stackDying, Frame.dying]
  · simp [stackRefs, Frame.refs]
  · rw [List.mem_singleton.1 hg]
    refine ⟨⟨trivial, fun r hr => ?_⟩, fun _ hr => hr⟩
    rw [Multiset.mem_singleton.1 hr]
    exact hcond.log rfl

theorem freeBlock_goes (hok : (Frame.freeBlock a).Ok s₀ s) : (Frame.freeBlock a).Goes s₀ s := by
  have hcond := hok.condemned (.block a) (Multiset.mem_singleton_self _)
  obtain ⟨c, hc, hd⟩ := hcond.block
  refine ⟨[], 0, _, .quiet, ?_, .free (blockRecord_of hc) hd rfl hcond rfl rfl⟩
  rw [Frame.step, bind_ok (freeBlock_ok hc)]
  rfl

theorem freeByref_goes (hok : (Frame.freeByref p).Ok s₀ s) : (Frame.freeByref p).Goes s₀ s := by
  have hcond := hok.condemned (.byref p) (Multiset.mem_singleton_self _)
  obtain ⟨c, hc, hd⟩ := hcond.byref
  refine ⟨[], 0, _, .quiet, ?_, .free (byrefRecord_of hc) hd rfl hcond rfl rfl⟩
  rw [Frame.step, bind_ok (freeByref_ok hc)]
  rfl

theorem byrefHasDispose_goes (hs : Sane s₀ s) (hok : (Frame.byrefHasDispose p).Ok s₀ s) :
    (Frame.byrefHasDispose p).Goes s₀ s := by
  have hcond := hok.condemned (.byref p) (Multiset.mem_singleton_self _)
  obtain ⟨c, hc, _⟩ := hcond.byref
  have hrep := (hs.fades.rep hs.rep).byref_ok p c hc
  have howns : Frame.ownsOf s₀ (.byref p) = ownedByByref c.byref :=
    hs.fades.ownsOf (byrefRecord_of hc)
  rw [Frame.todo, deathOf_byref hs hc] at hcond
  by_cases hhas : c.byref.flags &&& BLOCK_BYREF_HAS_COPY_DISPOSE ≠ 0
  · rw [byrefDeath, if_pos hhas] at hcond
    obtain ⟨c₀, w, hc₀, rfl, hw⟩ := hs.fades.byref p c hc
    have hhas₀ : c₀.byref.flags &&& BLOCK_BYREF_HAS_COPY_DISPOSE ≠ 0 := by
      rwa [ByrefCell.withFlags, and_eq_of_high_eq hw BLOCK_BYREF_HAS_COPY_DISPOSE (by decide)]
        at hhas
    refine ⟨[.byrefDestroy p], 0, s, .quiet, ?_, .push rfl rfl ⟨⟨c₀, hc₀, hhas₀⟩, fun r hr => ?_⟩
      fun _ hr => hr⟩
    · rw [Frame.step, bind_ok (loadByref_ok hc), if_pos hhas]
      rfl
    · rw [Multiset.mem_singleton.1 hr]
      exact hcond
  · rw [byrefDeath, if_neg hhas] at hcond
    have hnone : c.byref.byref2 = none := by
      cases hb : c.byref.byref2 with
      | none => rfl
      | some b => exact absurd (hrep.byref2.2 (by simp [hb])) hhas
    refine ⟨[.freeByref p], 0, s, .quiet, ?_, .push ?_ rfl ⟨trivial, fun r hr => ?_⟩
      fun _ hr => hr⟩
    · rw [Frame.step, bind_ok (loadByref_ok hc), if_neg hhas]
      rfl
    · show 0 = Frame.ownsOf s₀ (.byref p)
      rw [howns, ownedByByref, hnone]
    · rw [Multiset.mem_singleton.1 hr]
      exact hcond

theorem byrefDestroy_goes (hs : Sane s₀ s) (hok : (Frame.byrefDestroy p).Ok s₀ s) :
    (Frame.byrefDestroy p).Goes s₀ s := by
  have hcond := hok.condemned (.byref p) (Multiset.mem_singleton_self _)
  obtain ⟨c, hc, _⟩ := hcond.byref
  obtain ⟨c₀, hc₀, hhas₀⟩ := hok.static
  obtain ⟨c₁, w, hc₁, rfl, hw⟩ := hs.fades.byref p c hc
  obtain rfl : c₀ = c₁ := Option.some.inj (hc₀.symm.trans hc₁)
  have hrep := hs.rep.byref_ok p c₀ hc₀
  obtain ⟨b, hb⟩ := Option.isSome_iff_exists.1 (hrep.byref2.1 hhas₀)
  have hfield := hrep.destroy b hb
  have howns : Frame.ownsOf s₀ (.byref p) = ownedByByref c₀.byref :=
    hs.fades.ownsOf (byrefRecord_of hc)
  -- both helpers log the event and go on with the value of their field
  have hgo : ∀ g : Frame, g.dying = 0 → g.refs s₀ = ownedByByref c₀.byref → g.borrowed s₀ = 0 →
      g.Static s₀ →
      (Frame.byrefDestroy p).step s = .ok (([g, .freeByref p], 0), s.log (.byrefDestroy p)) →
      (Frame.byrefDestroy p).Goes s₀ s := by
    intro g hdown hrefs hborrow hstatic hstep
    refine ⟨[g, .freeByref p], 0, _, .quiet, hstep,
      .tear (r := .byref p) rfl (by simp [recordAt, hc]) rfl ?_ ?_ fun g' hg => ?_⟩
    · rw [stackDying_cons, hdown]
      rfl
    · rw [stackRefs_cons, hrefs, ← howns]
      exact add_zero _
    · simp only [List.mem_cons, List.not_mem_nil, or_false] at hg
      rcases hg with rfl | rfl
      · refine ⟨.of_static hdown hstatic, fun r hr => ?_⟩
        rw [hborrow] at hr
        exact absurd hr (Multiset.notMem_zero r)
      · refine ⟨⟨trivial, fun r hr => ?_⟩, fun _ hr => hr⟩
        rw [Multiset.mem_singleton.1 hr]
        exact hcond.log rfl
  cases hd : b.byrefDestroy with
  | dispose field flags =>
    rw [hd] at hfield
    obtain ⟨hflags, hlt⟩ := hfield
    have hkind := heldKind_byrefHelper hflags
    refine hgo (.objectDispose (c₀.byref.storage[field]) flags) rfl ?_ rfl ?_ ?_
    · simp [Frame.refs, heldRefs, hkind, ownedByByref, hb, hd]
    · rintro (h | h) <;> rw [hkind] at h <;> cases h
    · rw [Frame.step, bind_ok (log_apply _ _), bind_ok (loadByref_ok (by exact hc))]
      simp only [ByrefCell.withFlags, hb, hd]
      rw [bind_ok (wordAt_ok (List.getElem?_eq_getElem hlt) _)]
      rfl
  | release field =>
    rw [hd] at hfield
    refine hgo (.release (c₀.byref.storage[field])) rfl ?_ rfl trivial ?_
    · simp [Frame.refs, ownedByByref, hb, hd, List.getD_eq_getElem?_getD,
        List.getElem?_eq_getElem hfield]
    · rw [Frame.step, bind_ok (log_apply _ _), bind_ok (loadByref_ok (by exact hc))]
      simp only [ByrefCell.withFlags, hb, hd]
      rw [bind_ok (wordAt_ok (List.getElem?_eq_getElem hfield) _)]
      rfl

/-! ## Retaining -/

theorem objectAssign_goes {object : Addr} (hs : Sane s₀ s)
    (hok : (Frame.objectAssign object flags).Ok s₀ s) :
    (Frame.objectAssign object flags).Goes s₀ s := by
  have hbyref : heldKind flags = .byref ∨ heldKind flags = .weakByref → s₀.byrefs object ≠ none :=
    hok.static
  cases hk : heldKind flags with
  | plain => exact ⟨[], 0, s, .quiet, by simp [Frame.step, hk], .done rfl rfl⟩
  | object =>
    refine ⟨[], {.object object}, s.log (.retainObject object), _,
      by simp [Frame.step, hk, bind_ok (log_apply _ _)], .retainObject hs rfl ?_ rfl⟩
    simp [Frame.borrowed, heldRefs, hk]
  | block =>
    refine ⟨[.copy object], 0, s, .quiet, by simp [Frame.step, hk],
      .push rfl rfl (.of_static rfl trivial) fun r hr => ?_⟩
    simpa [Frame.borrowed, heldRefs, hk] using hr
  | byref =>
    refine ⟨[.byrefCopy object], 0, s, .quiet, by simp [Frame.step, hk],
      .push rfl rfl (.of_static rfl (hbyref (Or.inl hk))) fun r hr => ?_⟩
    simpa [Frame.borrowed, heldRefs, hk] using hr
  | weakByref =>
    refine ⟨[.byrefCopy object], 0, s, .quiet, by simp [Frame.step, hk],
      .push rfl rfl (.of_static rfl (hbyref (Or.inr hk))) fun r hr => ?_⟩
    simpa [Frame.borrowed, heldRefs, hk] using hr

theorem copy_goes (hs : Sane s₀ s) (ht : Target s₀ s (.block a)) : (Frame.copy a).Goes s₀ s := by
  have hrep := hs.fades.rep hs.rep
  by_cases hnull : a = NULL
  · refine ⟨[], {.block a}, s, .acquire (.block a), ?_,
      .borrow (acquire_external (r := .block a) hs (Or.inl hnull)) rfl
        (Multiset.mem_singleton_self _) rfl fun _ ho => by cases ho⟩
    rw [Frame.step, if_pos hnull]
    rfl
  rcases ht.block_cases hs with hn | ⟨c, hc, hg⟩ | ⟨c, hc, hl, hext⟩
  · exact absurd hn hnull
  · have hheap : ¬(c.layout.flags &&& BLOCK_NEEDS_FREE ≠ 0) := fun h => by
      have hh := (hrep.block_ok a c hc).needsFree.1 h
      rw [hg] at hh
      cases hh
    obtain ⟨c₀, w, hc₀, rfl, _⟩ := hs.fades.block a c hc
    refine ⟨[.copyIsGlobal a], 0, s, .quiet, ?_,
      .push rfl rfl (.of_static rfl ⟨c₀, hc₀, hg⟩) fun _ hr => hr⟩
    rw [Frame.step, if_neg hnull, bind_ok (loadBlock_ok hc), if_neg hheap]
    rfl
  · refine ⟨[.incrRead (.block a)], 0, s, .quiet, ?_,
      .push rfl rfl (.of_static rfl hext) fun _ hr => hr⟩
    rw [Frame.step, if_neg hnull, bind_ok (loadBlock_ok hc),
      if_pos ((hrep.block_ok a c hc).needsFree.2 hl.1)]
    rfl

theorem copyIsGlobal_goes (hs : Sane s₀ s) (hok : (Frame.copyIsGlobal a).Ok s₀ s) :
    (Frame.copyIsGlobal a).Goes s₀ s := by
  obtain ⟨c, hc₀, hg⟩ := hok.static
  have hc := hs.fades.block_kept a c hc₀ (by rw [hg]; decide)
  refine ⟨[], {.block a}, s, .acquire (.block a), ?_,
    .borrow (acquire_external (r := .block a) hs (Or.inr ⟨c, hc₀, hg⟩)) rfl
      (Multiset.mem_singleton_self _) rfl fun _ ho => by cases ho⟩
  rw [Frame.step, bind_ok (loadBlock_ok hc), if_pos ((hs.rep.block_ok a c hc₀).isGlobal.2 hg)]
  rfl

theorem byrefCopy_goes (hs : Sane s₀ s) (hok : (Frame.byrefCopy v).Ok s₀ s)
    (ht : Target s₀ s (.byref (forwardOf s₀ v))) : (Frame.byrefCopy v).Goes s₀ s := by
  obtain ⟨c, hc, hf⟩ := ht.variable hs hok.static
  obtain ⟨d, hd, _, hpos⟩ := ht.byref hs
  have hcount : ¬(d.byref.flags &&& BLOCK_REFCOUNT_MASK = 0) := fun h =>
    hpos.ne' ((and_refcount_mask_eq_zero _).1 h)
  refine ⟨[.byrefCopyNeedsFree v], 0, s, .quiet, ?_,
    .push rfl rfl (.of_static rfl hok.static) fun _ hr => hr⟩
  rw [Frame.step, bind_ok (loadByref_ok hc), hf, bind_ok (loadByref_ok hd), if_neg hcount]
  rfl

theorem byrefCopyNeedsFree_goes (hs : Sane s₀ s) (hok : (Frame.byrefCopyNeedsFree v).Ok s₀ s)
    (ht : Target s₀ s (.byref (forwardOf s₀ v))) : (Frame.byrefCopyNeedsFree v).Goes s₀ s := by
  obtain ⟨c, hc, hf⟩ := ht.variable hs hok.static
  obtain ⟨d, hd, hl, _⟩ := ht.byref hs
  have hheap := and_needsFree_eq (((hs.fades.rep hs.rep).byref_ok _ d hd).needsFree.2 hl.1)
  refine ⟨[.incrRead (.byref (forwardOf s₀ v)), .byrefCopyReturn v], 0, s, .quiet, ?_,
    .silent rfl rfl fun g hg => ?_⟩
  · rw [Frame.step, bind_ok (loadByref_ok hc), hf, bind_ok (loadByref_ok hd), if_pos hheap]
    rfl
  · simp only [List.mem_cons, List.not_mem_nil, or_false] at hg
    rcases hg with rfl | rfl
    · exact ⟨.of_static rfl id, fun _ hr => hr⟩
    · exact ⟨.of_static rfl hok.static, fun _ hr => hr⟩

theorem byrefCopyReturn_goes (hs : Sane s₀ s) (hok : (Frame.byrefCopyReturn v).Ok s₀ s)
    (ht : Target s₀ s (.byref (forwardOf s₀ v))) : (Frame.byrefCopyReturn v).Goes s₀ s := by
  obtain ⟨c, hc, _⟩ := ht.variable hs hok.static
  refine ⟨[], 0, s, .quiet, ?_, .done rfl rfl⟩
  rw [Frame.step, bind_ok (loadByref_ok hc)]
  rfl

theorem incrRead_goes (hs : Sane s₀ s) (hok : (Frame.incrRead r).Ok s₀ s)
    (ht : Target s₀ s r) : (Frame.incrRead r).Goes s₀ s := by
  obtain ⟨x, hx, hl, _⟩ := ht.live hs hok.static
  have hnode := (hs.fades.rep hs.rep).node hx hl
  cases hd : latchingIncrInt x.word with
  | exit result =>
    refine ⟨[], {r}, s, .acquire r, ?_, .borrow (Graph.acquire_latched hnode (incr_exit hd)) rfl
      (Multiset.mem_singleton_self r) rfl ?_⟩
    · rw [Frame.step, bind_ok (loadWord_ok hx), hd]
      rfl
    · rintro o rfl
      cases hx
  | cas newValue result =>
    refine ⟨[.incrSwap r ⟨x.word, newValue, result⟩], 0, s, .quiet, ?_,
      .push rfl rfl (.of_static rfl ⟨hok.static, hd⟩) fun _ hr => hr⟩
    rw [Frame.step, bind_ok (loadWord_ok hx), hd]
    rfl

theorem incrSwap_goes {a : Swap Flags Flags} (hs : Sane s₀ s) (hok : (Frame.incrSwap r a).Ok s₀ s)
    (ht : Target s₀ s r) : (Frame.incrSwap r a).Goes s₀ s := by
  obtain ⟨hext, hd⟩ := hok.static
  obtain ⟨x, hx, hl, _⟩ := ht.live hs hext
  by_cases hw : x.word = a.old
  · rw [← hw] at hd
    obtain ⟨hcount, hlatch, hm⟩ := incr_cas hd
    refine ⟨[], {r}, _, .acquire r, ?_, .raise (hs.fades.rep hs.rep) hx hl hm hcount hlatch rfl
      (Multiset.mem_singleton_self r) rfl⟩
    rw [Frame.step, bind_ok (loadWord_ok hx), if_pos hw, bind_ok (storeWord_ok hx _)]
    rfl
  · -- another thread was faster
    refine ⟨[.incrRead r], 0, s, .quiet, ?_, .push rfl rfl (.of_static rfl hext) fun _ hr => hr⟩
    rw [Frame.step, bind_ok (loadWord_ok hx), if_neg hw]
    rfl

/-! ## All of them -/

/-- No step of an activation faults, and each is a `Change`. -/
theorem Frame.step_change {f : Frame} (hs : Sane s₀ s) (hok : f.Ok s₀ s)
    (hrefs : ∀ r ∈ f.refs s₀, Target s₀ s r) (hb : ∀ r ∈ f.borrowed s₀, Target s₀ s r) :
    f.Goes s₀ s := by
  cases f with
  | objectDispose object flags => exact objectDispose_goes hs hok
  | release arg => exact release_goes hs (hrefs _ (Multiset.mem_singleton_self _))
  | releaseNeedsFree aBlock =>
    exact releaseNeedsFree_goes hs hok (hrefs _ (Multiset.mem_singleton_self _))
  | callDisposeHelper aBlock => exact callDisposeHelper_goes hs hok
  | destructInstance aBlock => exact destructInstance_goes hok
  | freeBlock aBlock => exact freeBlock_goes hok
  | byrefRelease arg => exact byrefRelease_goes hs hok (hrefs _ (Multiset.mem_singleton_self _))
  | byrefReleaseNeedsFree byref =>
    exact byrefReleaseNeedsFree_goes hs (hrefs _ (Multiset.mem_singleton_self _))
  | byrefReleaseAssert byref =>
    exact byrefReleaseAssert_goes hs (hrefs _ (Multiset.mem_singleton_self _))
  | byrefHasDispose byref => exact byrefHasDispose_goes hs hok
  | byrefDestroy byref => exact byrefDestroy_goes hs hok
  | freeByref byref => exact freeByref_goes hok
  | decrRead r => exact decrRead_goes hs hok (hrefs _ (Multiset.mem_singleton_self _))
  | decrSwap r a => exact decrSwap_goes hs hok (hrefs _ (Multiset.mem_singleton_self _))
  | disposeFields xs => exact disposeFields_goes hs hrefs
  | objectAssign object flags => exact objectAssign_goes hs hok
  | copy arg => exact copy_goes hs (hb _ (Multiset.mem_singleton_self _))
  | copyIsGlobal aBlock => exact copyIsGlobal_goes hs hok
  | byrefCopy arg => exact byrefCopy_goes hs hok (hb _ (Multiset.mem_singleton_self _))
  | byrefCopyNeedsFree arg =>
    exact byrefCopyNeedsFree_goes hs hok (hb _ (Multiset.mem_singleton_self _))
  | byrefCopyReturn arg => exact byrefCopyReturn_goes hs hok (hb _ (Multiset.mem_singleton_self _))
  | incrRead r => exact incrRead_goes hs hok (hb _ (Multiset.mem_singleton_self _))
  | incrSwap r a => exact incrSwap_goes hs hok (hb _ (Multiset.mem_singleton_self _))
  | leave arg => exact hok.static.elim

end

end BlocksRuntime.Threads
