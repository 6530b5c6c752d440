import BlocksRuntime.Discipline

/-!
# Releasing

`_Block_release`, `_Block_byref_release` and the dispose helpers, on a memory
that is used according to the ownership discipline.

* `Shrinks` is the frame of a release: what is not live is untouched, what is
  live has at most another count or is gone, and the events about each record
  say which.
* `Released` adds that the ownership graph went through a complete cascade of
  `Ownership.Drains`.
* `blockReleaseN_spec` and `blockByrefReleaseN_spec` say that the calls return
  and do just that.  The induction is on the recursion bound, and the bound
  suffices because each verdict takes a node out of the graph.
-/

namespace BlocksRuntime

open Ownership

/-! ## What a release may change -/

/-- The events of the deallocation of a block. -/
def blockDeath (a : Addr) (c : BlockCell) : List Event :=
  match blockDescriptor2 c.layout with
  | some desc => [.disposeHelper (desc.getD 1 0) a, .destructInstance a, .freeBlock a]
  | none => [.destructInstance a, .freeBlock a]

/-- The events of the deallocation of a `__block` record. -/
def byrefDeath (a : Addr) (c : ByrefCell) : List Event :=
  if c.byref.flags &&& BLOCK_BYREF_HAS_COPY_DISPOSE ≠ 0 then [.byrefDestroy a, .freeByref a]
  else [.freeByref a]

/-- The frame of a release.  The references in `f` to objects were given
up. -/
structure Shrinks (s t : Mem) (f : Multiset Ref) : Prop where
  next : t.next = s.next
  mallocs : t.mallocs = s.mallocs
  block : ∀ a c, s.blocks a = some c →
    (∃ w, t.blocks a = some (c.withFlags w) ∧ SameMeta w c.layout.flags ∧
      (¬c.Live → w = c.layout.flags) ∧
      history (.block a) t.trace = history (.block a) s.trace) ∨
    (t.blocks a = none ∧ c.Live ∧
      history (.block a) t.trace = history (.block a) s.trace ++ blockDeath a c)
  block_none : ∀ a, s.blocks a = none →
    t.blocks a = none ∧ history (.block a) t.trace = history (.block a) s.trace
  byref : ∀ a c, s.byrefs a = some c →
    (∃ w, t.byrefs a = some (c.withFlags w) ∧ SameMeta w c.byref.flags ∧
      (¬c.Live → w = c.byref.flags) ∧
      history (.byref a) t.trace = history (.byref a) s.trace) ∨
    (t.byrefs a = none ∧ c.Live ∧
      history (.byref a) t.trace = history (.byref a) s.trace ++ byrefDeath a c)
  byref_none : ∀ a, s.byrefs a = none →
    t.byrefs a = none ∧ history (.byref a) t.trace = history (.byref a) s.trace
  object : ∀ o, history (.object o) t.trace =
    history (.object o) s.trace ++ List.replicate (f.count (.object o)) (.releaseObject o)

/-- A complete release of the references in `w`. -/
def Released (s : Mem) (w : Multiset Ref) (t : Mem) : Prop :=
  ∃ f, Drains latched (graphOf s) w (graphOf t) f ∧ Shrinks s t f

section WithFlags

variable {a : Addr} {w : Flags}

theorem blockDescriptor2_withFlags {c : BlockCell} (h : SameMeta w c.layout.flags) :
    blockDescriptor2 (c.withFlags w).layout = blockDescriptor2 c.layout := by
  have hm := and_eq_of_high_eq h.high BLOCK_HAS_COPY_DISPOSE (by decide)
  simp only [blockDescriptor2, BlockCell.withFlags, hm]

theorem blockDeath_withFlags {c : BlockCell} (h : SameMeta w c.layout.flags) :
    blockDeath a (c.withFlags w) = blockDeath a c := by
  rw [blockDeath, blockDescriptor2_withFlags h, blockDeath]

theorem byrefDeath_withFlags {c : ByrefCell} (h : SameMeta w c.byref.flags) :
    byrefDeath a (c.withFlags w) = byrefDeath a c := by
  have hm := and_eq_of_high_eq h.high BLOCK_BYREF_HAS_COPY_DISPOSE (by decide)
  simp only [byrefDeath, ByrefCell.withFlags, hm]

theorem BlockCell.live_withFlags {c : BlockCell} (h : SameMeta w c.layout.flags) :
    (c.withFlags w).Live ↔ c.Live := by
  simp only [BlockCell.Live, BlockCell.withFlags, h.dealloc]

theorem ByrefCell.live_withFlags {c : ByrefCell} (h : SameMeta w c.byref.flags) :
    (c.withFlags w).Live ↔ c.Live := by
  simp only [ByrefCell.Live, ByrefCell.withFlags, h.dealloc]

theorem BlockCell.Ok.withFlags {c : BlockCell} (hok : c.Ok a) (h : high w = high c.layout.flags) :
    (c.withFlags w).Ok a := by
  have hm := fun m hm => and_eq_of_high_eq h m hm
  refine ⟨?_, ?_, hok.isa, hok.plain, ?_, ?_, hok.older⟩
  · simp only [BlockCell.withFlags, hm BLOCK_NEEDS_FREE (by decide)]
    exact hok.needsFree
  · simp only [BlockCell.withFlags, hm BLOCK_IS_GLOBAL (by decide)]
    exact hok.isGlobal
  · simp only [BlockCell.withFlags, hm BLOCK_HAS_COPY_DISPOSE (by decide)]
    exact hok.helpers
  · simp only [BlockCell.withFlags, hm BLOCK_HAS_COPY_DISPOSE (by decide)]
    exact hok.descriptor

theorem ByrefCell.Ok.withFlags {c : ByrefCell} (hok : c.Ok a) (h : high w = high c.byref.flags)
    (hs : c.storage ≠ .stack) : (c.withFlags w).Ok a := by
  have hm := fun m hm => and_eq_of_high_eq h m hm
  refine ⟨?_, hok.notGlobal, fun he => absurd he hs, hok.heap, ?_, hok.helpers⟩
  · simp only [ByrefCell.withFlags, hm BLOCK_BYREF_NEEDS_FREE (by decide)]
    exact hok.needsFree
  · simp only [ByrefCell.withFlags, hm BLOCK_BYREF_HAS_COPY_DISPOSE (by decide)]
    exact hok.byref2

end WithFlags

theorem ByrefCell.not_live_of_stack {c : ByrefCell} (h : c.storage = .stack) : ¬c.Live := by
  intro hl
  rw [hl.1] at h
  cases h

theorem BlockCell.not_live_of_ne_heap {c : BlockCell} (h : c.storage ≠ .heap) : ¬c.Live :=
  fun hl => h hl.1

theorem BlockCell.not_live_of_stack {c : BlockCell} (h : c.storage = .stack) : ¬c.Live :=
  BlockCell.not_live_of_ne_heap (by rw [h]; decide)

theorem BlockCell.not_live_of_global {c : BlockCell} (h : c.storage = .global) : ¬c.Live :=
  BlockCell.not_live_of_ne_heap (by rw [h]; decide)

namespace Shrinks

variable {s t u : Mem} {f f' : Multiset Ref}

theorem refl (s : Mem) : Shrinks s s 0 where
  next := rfl
  mallocs := rfl
  block a c h := Or.inl ⟨c.layout.flags, h, SameMeta.refl _, fun _ => rfl, rfl⟩
  block_none a h := ⟨h, rfl⟩
  byref a c h := Or.inl ⟨c.byref.flags, h, SameMeta.refl _, fun _ => rfl, rfl⟩
  byref_none a h := ⟨h, rfl⟩
  object o := by simp

theorem trans (h : Shrinks s t f) (h' : Shrinks t u f') : Shrinks s u (f + f') where
  next := h'.next.trans h.next
  mallocs := h'.mallocs.trans h.mallocs
  block a c hc := by
    rcases h.block a c hc with ⟨w, hw, hm, hl, hh⟩ | ⟨hn, hl, hh⟩
    · rcases h'.block a _ hw with ⟨v, hv, hm', hl', hh'⟩ | ⟨hn', hl', hh'⟩
      · refine Or.inl ⟨v, hv, hm'.trans hm, fun hnl => ?_, hh'.trans hh⟩
        rw [hl' (fun hlw => hnl ((BlockCell.live_withFlags hm).1 hlw))]
        exact hl hnl
      · refine Or.inr ⟨hn', (BlockCell.live_withFlags hm).1 hl', ?_⟩
        rw [hh', hh, blockDeath_withFlags hm]
    · obtain ⟨hn', hh'⟩ := h'.block_none a hn
      exact Or.inr ⟨hn', hl, hh'.trans hh⟩
  block_none a ha := by
    obtain ⟨hn, hh⟩ := h.block_none a ha
    obtain ⟨hn', hh'⟩ := h'.block_none a hn
    exact ⟨hn', hh'.trans hh⟩
  byref a c hc := by
    rcases h.byref a c hc with ⟨w, hw, hm, hl, hh⟩ | ⟨hn, hl, hh⟩
    · rcases h'.byref a _ hw with ⟨v, hv, hm', hl', hh'⟩ | ⟨hn', hl', hh'⟩
      · refine Or.inl ⟨v, hv, hm'.trans hm, fun hnl => ?_, hh'.trans hh⟩
        rw [hl' (fun hlw => hnl ((ByrefCell.live_withFlags hm).1 hlw))]
        exact hl hnl
      · refine Or.inr ⟨hn', (ByrefCell.live_withFlags hm).1 hl', ?_⟩
        rw [hh', hh, byrefDeath_withFlags hm]
    · obtain ⟨hn', hh'⟩ := h'.byref_none a hn
      exact Or.inr ⟨hn', hl, hh'.trans hh⟩
  byref_none a ha := by
    obtain ⟨hn, hh⟩ := h.byref_none a ha
    obtain ⟨hn', hh'⟩ := h'.byref_none a hn
    exact ⟨hn', hh'.trans hh⟩
  object o := by
    rw [h'.object, h.object, Multiset.count_add, List.append_assoc, List.replicate_append_replicate]

/-- A block that is there afterwards was there before. -/
theorem block_some (h : Shrinks s t f) {a : Addr} {d : BlockCell} (hd : t.blocks a = some d) :
    ∃ c w, s.blocks a = some c ∧ d = c.withFlags w ∧ SameMeta w c.layout.flags ∧
      (¬c.Live → w = c.layout.flags) ∧
      history (.block a) t.trace = history (.block a) s.trace := by
  cases hs : s.blocks a with
  | none =>
    rw [(h.block_none a hs).1] at hd
    cases hd
  | some c =>
    rcases h.block a c hs with ⟨w, hw, hm, hl, hh⟩ | ⟨hn, _⟩
    · rw [hw, Option.some.injEq] at hd
      exact ⟨c, w, rfl, hd.symm, hm, hl, hh⟩
    · rw [hn] at hd
      cases hd

theorem byref_some (h : Shrinks s t f) {a : Addr} {d : ByrefCell} (hd : t.byrefs a = some d) :
    ∃ c w, s.byrefs a = some c ∧ d = c.withFlags w ∧ SameMeta w c.byref.flags ∧
      (¬c.Live → w = c.byref.flags) ∧
      history (.byref a) t.trace = history (.byref a) s.trace := by
  cases hs : s.byrefs a with
  | none =>
    rw [(h.byref_none a hs).1] at hd
    cases hd
  | some c =>
    rcases h.byref a c hs with ⟨w, hw, hm, hl, hh⟩ | ⟨hn, _⟩
    · rw [hw, Option.some.injEq] at hd
      exact ⟨c, w, rfl, hd.symm, hm, hl, hh⟩
    · rw [hn] at hd
      cases hd

/-- A cell that is not live is not touched. -/
theorem block_dead (h : Shrinks s t f) {a : Addr} {c : BlockCell} (hc : s.blocks a = some c)
    (hl : ¬c.Live) : t.blocks a = some c := by
  rcases h.block a c hc with ⟨w, hw, _, he, _⟩ | ⟨_, hl', _⟩
  · rw [hw, he hl, BlockCell.withFlags_flags]
  · exact absurd hl' hl

theorem byref_dead (h : Shrinks s t f) {a : Addr} {c : ByrefCell} (hc : s.byrefs a = some c)
    (hl : ¬c.Live) : t.byrefs a = some c := by
  rcases h.byref a c hc with ⟨w, hw, _, he, _⟩ | ⟨_, hl', _⟩
  · rw [hw, he hl, ByrefCell.withFlags_flags]
  · exact absurd hl' hl

/-- The events about a block that is not live are the old ones. -/
theorem history_dead (h : Shrinks s t f) {a : Addr} {c : BlockCell} (hc : s.blocks a = some c)
    (hl : ¬c.Live) : history (.block a) t.trace = history (.block a) s.trace := by
  rcases h.block a c hc with ⟨_, _, _, _, hh⟩ | ⟨_, hl', _⟩
  · exact hh
  · exact absurd hl' hl

theorem rep (h : Shrinks s t f) (hs : Rep s) : Rep t where
  next_pos := by
    rw [h.next]
    exact hs.next_pos
  block_null := (h.block_none NULL hs.block_null).1
  byref_null := (h.byref_none NULL hs.byref_null).1
  block_lt a d hd := by
    obtain ⟨c, w, hc, _⟩ := h.block_some hd
    rw [h.next]
    exact hs.block_lt a c hc
  byref_lt a d hd := by
    obtain ⟨c, w, hc, _⟩ := h.byref_some hd
    rw [h.next]
    exact hs.byref_lt a c hc
  disjoint a d hd := by
    obtain ⟨c, w, hc, _⟩ := h.block_some hd
    exact (h.byref_none a (hs.disjoint a c hc)).1
  block_ok a d hd := by
    obtain ⟨c, w, hc, he, hm, _⟩ := h.block_some hd
    rw [he]
    exact (hs.block_ok a c hc).withFlags hm.high
  byref_ok a d hd := by
    obtain ⟨c, w, hc, he, hm, hl, _⟩ := h.byref_some hd
    by_cases hst : c.storage = .stack
    · rw [he, hl (ByrefCell.not_live_of_stack hst), ByrefCell.withFlags_flags]
      exact hs.byref_ok a c hc
    · rw [he]
      exact (hs.byref_ok a c hc).withFlags hm.high hst
  forwarding_lt a d hd := by
    obtain ⟨c, w, hc, he, _⟩ := h.byref_some hd
    rw [h.next, he]
    exact hs.forwarding_lt a c hc
  forwarding_inj v w d e hd he hsd hse hf := by
    obtain ⟨c, _, hc, hdc, _⟩ := h.byref_some hd
    obtain ⟨c', _, hc', hec, _⟩ := h.byref_some he
    rw [hdc] at hsd hf
    rw [hec] at hse hf
    exact hs.forwarding_inj v w c c' hc hc' hsd hse hf

/-- Global blocks and objects stay what they are. -/
theorem external (h : Shrinks s t f) : External t = External s := by
  funext r
  cases r with
  | block a =>
    simp only [External, eq_iff_iff]
    refine or_congr Iff.rfl ⟨fun hg => ?_, fun hg => ?_⟩
    · obtain ⟨d, hd, hsd⟩ := hg
      obtain ⟨c, w, hc, he, _⟩ := h.block_some hd
      rw [he] at hsd
      exact ⟨c, hc, hsd⟩
    · obtain ⟨c, hc, hsc⟩ := hg
      exact ⟨c, h.block_dead hc (BlockCell.not_live_of_global hsc), hsc⟩
  | byref a => rfl
  | object o => rfl

theorem scopeRef (h : Shrinks s t f) (v : Addr) : scopeRef t v = scopeRef s v := by
  simp only [BlocksRuntime.scopeRef]
  cases hs : s.byrefs v with
  | none => rw [(h.byref_none v hs).1]
  | some c =>
    by_cases hst : c.storage = .stack
    · rw [h.byref_dead hs (ByrefCell.not_live_of_stack hst)]
    · have hno : ¬(c.storage = .stack ∧ c.byref.forwarding ≠ v) := fun hh => hst hh.1
      cases ht : t.byrefs v with
      | none => simp only [hno, if_false]
      | some d =>
        obtain ⟨c', w, hc', he, _⟩ := h.byref_some ht
        rw [hs, Option.some.injEq] at hc'
        have hst' : ¬(d.storage = .stack ∧ d.byref.forwarding ≠ v) := fun hh => by
          rw [he, ← hc'] at hh
          exact hst hh.1
        simp only [hno, hst', if_false]

theorem scopeRefs (h : Shrinks s t f) (scope : Finset Addr) :
    scopeRefs t scope = scopeRefs s scope :=
  Finset.sum_congr rfl fun v _ => h.scopeRef v

end Shrinks

/-! ## Composing releases -/

section

variable {s t u : Mem} {scope : Finset Addr} {w w' : Multiset Ref}

theorem Released.nil (s : Mem) : Released s 0 s := ⟨0, Drains.nil _ _, Shrinks.refl s⟩

theorem Released.add (h : Released s w t) (h' : Released t w' u) : Released s (w + w') u := by
  obtain ⟨f, hd, hsh⟩ := h
  obtain ⟨f', hd', hsh'⟩ := h'
  exact ⟨f + f', hd.add hd', hsh.trans hsh'⟩

theorem Released.rep (h : Released s w t) (hs : Rep s) : Rep t := by
  obtain ⟨f, _, hsh⟩ := h
  exact hsh.rep hs

/-- A release keeps the counting discipline of what is not released. -/
theorem Released.counted (h : Released s w t) (hs : Counted s scope (w + w')) :
    Counted t scope w' := by
  obtain ⟨f, hd, hsh⟩ := h
  rw [Counted, hsh.external, hsh.scopeRefs]
  refine hd.sound ?_
  rw [Counted, add_left_comm] at hs
  exact hs

/-- The nodes of a memory after a release. -/
theorem Released.card_le (h : Released s w t) :
    (graphOf t).support.card ≤ (graphOf s).support.card := by
  obtain ⟨f, hd, _⟩ := h
  refine Finset.card_le_card fun r hr => ?_
  obtain ⟨m, hm⟩ := Option.ne_none_iff_exists'.1 (((graphOf t).mem_support r).1 hr)
  obtain ⟨n, hn, _⟩ := hd.node hm
  exact Graph.mem_support_of_node hn

end

/-! ## What a counted reference may be -/

section

variable {s : Mem} {scope : Finset Addr} {w : Multiset Ref} {a : Addr}

theorem Counted.mem_cases (h : Counted s scope w) {r : Ref} (hr : r ∈ w) :
    (graphOf s).node r ≠ none ∨ External s r :=
  h.closed r (Graph.refs_pos_of_mem (Multiset.mem_add.2 (Or.inr hr)))

/-- A counted block reference is `NULL`, a global block or a live heap
block. -/
theorem Counted.block_cases (h : Counted s scope w) (hr : .block a ∈ w) :
    a = NULL ∨ (∃ c, s.blocks a = some c ∧ c.storage = .global) ∨
      (∃ c, s.blocks a = some c ∧ a < s.next ∧ c.Live) := by
  rcases h.mem_cases hr with hn | he
  · obtain ⟨n, hn⟩ := Option.ne_none_iff_exists'.1 hn
    obtain ⟨c, hc, ha, hl, _⟩ := nodeAt_block_some hn
    exact Or.inr (Or.inr ⟨c, hc, ha, hl⟩)
  · rcases he with he | he
    · exact Or.inl he
    · exact Or.inr (Or.inl he)

/-- A counted reference to a `__block` record is to a live heap record. -/
theorem Counted.byref_cases (h : Counted s scope w) (hr : .byref a ∈ w) :
    ∃ c, s.byrefs a = some c ∧ a < s.next ∧ c.Live := by
  rcases h.mem_cases hr with hn | he
  · obtain ⟨n, hn⟩ := Option.ne_none_iff_exists'.1 hn
    obtain ⟨c, hc, ha, hl, _⟩ := nodeAt_byref_some hn
    exact ⟨c, hc, ha, hl⟩
  · exact he.elim

theorem Counted.refcount_pos_block (h : Counted s scope w) (hr : .block a ∈ w) {c : BlockCell}
    (hc : s.blocks a = some c) (ha : a < s.next) (hl : c.Live) : 0 < refcount c.layout.flags :=
  h.pos_of_refs (a := .block a) (n := blockNode c) (by decide) (nodeAt_block hc ha hl)
    (Graph.refs_pos_of_mem (Multiset.mem_add.2 (Or.inr hr)))

theorem Counted.refcount_pos_byref (h : Counted s scope w) (hr : .byref a ∈ w) {c : ByrefCell}
    (hc : s.byrefs a = some c) (ha : a < s.next) (hl : c.Live) : 0 < refcount c.byref.flags :=
  h.pos_of_refs (a := .byref a) (n := byrefNode c) (by decide) (nodeAt_byref hc ha hl)
    (Graph.refs_pos_of_mem (Multiset.mem_add.2 (Or.inr hr)))

end

/-! ## The parts of a release -/

section

variable {s t u : Mem} {scope : Finset Addr} {w : Multiset Ref} {a : Addr} {f : Multiset Ref}

/-- The representation invariant is about the records only. -/
theorem Rep.of_eq (hs : Rep s) (hb : t.blocks = s.blocks) (hy : t.byrefs = s.byrefs)
    (hn : t.next = s.next) : Rep t := by
  constructor <;> simp only [hb, hy, hn]
  · exact hs.next_pos
  · exact hs.block_null
  · exact hs.byref_null
  · exact hs.block_lt
  · exact hs.byref_lt
  · exact hs.disjoint
  · exact hs.block_ok
  · exact hs.byref_ok
  · exact hs.forwarding_lt
  · exact hs.forwarding_inj

/-- Another count in a live block. -/
theorem Shrinks.setBlock_flags {c : BlockCell} {v : Flags} (hc : s.blocks a = some c)
    (hl : c.Live) (hm : SameMeta v c.layout.flags) :
    Shrinks s (s.setBlock a (c.withFlags v)) 0 where
  next := rfl
  mallocs := rfl
  block b d hd := by
    rcases Mem.setBlock_cases (c.withFlags v) hc hd with ⟨_, rfl, hself⟩ | ⟨_, hother⟩
    · exact Or.inl ⟨v, hself, hm, fun hn => absurd hl hn, rfl⟩
    · exact Or.inl ⟨d.layout.flags, hother, SameMeta.refl _, fun _ => rfl, rfl⟩
  block_none b hb := ⟨Mem.setBlock_none _ hc hb, rfl⟩
  byref b d hd := Or.inl ⟨d.byref.flags, hd, SameMeta.refl _, fun _ => rfl, rfl⟩
  byref_none b hb := ⟨hb, rfl⟩
  object o := by simp

/-- Another count in a live `__block` record. -/
theorem Shrinks.setByref_flags {c : ByrefCell} {v : Flags} (hc : s.byrefs a = some c)
    (hl : c.Live) (hm : SameMeta v c.byref.flags) : Shrinks s (s.setByref a (c.withFlags v)) 0 where
  next := rfl
  mallocs := rfl
  block b d hd := Or.inl ⟨d.layout.flags, hd, SameMeta.refl _, fun _ => rfl, rfl⟩
  block_none b hb := ⟨hb, rfl⟩
  byref b d hd := by
    rcases Mem.setByref_cases (c.withFlags v) hc hd with ⟨_, rfl, hself⟩ | ⟨_, hother⟩
    · exact Or.inl ⟨v, hself, hm, fun hn => absurd hl hn, rfl⟩
    · exact Or.inl ⟨d.byref.flags, hother, SameMeta.refl _, fun _ => rfl, rfl⟩
  byref_none b hb := ⟨Mem.setByref_none _ hc hb, rfl⟩
  object o := by simp

/-- The events of a deallocation are about the record that goes. -/
theorem history_byrefDeath (r : Ref) (a : Addr) (c : ByrefCell) :
    history r (byrefDeath a c) = if r = .byref a then byrefDeath a c else [] := by
  have hsub : ∀ e ∈ byrefDeath a c, e.subject = .byref a := by
    intro e he
    unfold byrefDeath at he
    split_ifs at he <;> simp at he
    · rcases he with rfl | rfl <;> rfl
    · subst he
      rfl
  by_cases hr : r = .byref a
  · rw [if_pos hr, history, List.filter_eq_self]
    intro e he
    simp [hsub e he, hr]
  · rw [if_neg hr, history, List.filter_eq_nil_iff]
    intro e he
    simp [hsub e he, Ne.symm hr]

/-- The record of a `__block` variable is freed. -/
theorem Shrinks.freeByref {c : ByrefCell} (hc : s.byrefs a = some c) (hl : c.Live) {t : Mem}
    (hnext : t.next = s.next) (hmallocs : t.mallocs = s.mallocs) (hblocks : t.blocks = s.blocks)
    (hbyrefs : t.byrefs = Function.update s.byrefs a none)
    (htrace : t.trace = s.trace ++ byrefDeath a c) : Shrinks s t 0 where
  next := hnext
  mallocs := hmallocs
  block b d hd := by
    refine Or.inl ⟨d.layout.flags, by rw [hblocks, hd]; rfl, SameMeta.refl _, fun _ => rfl, ?_⟩
    rw [htrace, history_append, history_byrefDeath, if_neg (by simp), List.append_nil]
  block_none b hb := by
    refine ⟨by rw [hblocks, hb], ?_⟩
    rw [htrace, history_append, history_byrefDeath, if_neg (by simp), List.append_nil]
  byref b d hd := by
    by_cases hba : b = a
    · subst hba
      rw [hc, Option.some.injEq] at hd
      subst hd
      refine Or.inr ⟨by simp [hbyrefs], hl, ?_⟩
      rw [htrace, history_append, history_byrefDeath, if_pos rfl]
    · refine Or.inl ⟨d.byref.flags, by simp [hbyrefs, hba, hd], SameMeta.refl _, fun _ => rfl, ?_⟩
      rw [htrace, history_append, history_byrefDeath, if_neg (by simp [hba]), List.append_nil]
  byref_none b hb := by
    have hba : b ≠ a := fun h => by
      rw [h, hc] at hb
      cases hb
    refine ⟨by simp [hbyrefs, hba, hb], ?_⟩
    rw [htrace, history_append, history_byrefDeath, if_neg (by simp [hba]), List.append_nil]
  object o := by
    rw [htrace, history_append, history_byrefDeath, if_neg (by simp)]
    simp

/-- An object is released. -/
theorem Shrinks.releaseObject (s : Mem) (o : Addr) :
    Shrinks s (s.log (.releaseObject o)) {.object o} where
  next := rfl
  mallocs := rfl
  block a c h := Or.inl ⟨c.layout.flags, h, SameMeta.refl _, fun _ => rfl, by
    simp [history_append, history_single, Event.subject]⟩
  block_none a h := ⟨h, by simp [history_append, history_single, Event.subject]⟩
  byref a c h := Or.inl ⟨c.byref.flags, h, SameMeta.refl _, fun _ => rfl, by
    simp [history_append, history_single, Event.subject]⟩
  byref_none a h := ⟨h, by simp [history_append, history_single, Event.subject]⟩
  object p := by
    rw [Mem.log_trace, history_append, history_single, Event.subject, Multiset.count_singleton]
    by_cases hp : p = o
    · subst hp
      simp
    · simp [hp, Ne.symm hp]

theorem Released.releaseObject (s : Mem) (o : Addr) :
    Released s {.object o} (s.log (.releaseObject o)) :=
  ⟨{.object o}, Drains.outer rfl, Shrinks.releaseObject s o⟩

end

section

variable {s t : Mem} {a : Addr} {f : Multiset Ref}

/-- The events of a deallocation before the captured variables are given
up. -/
def disposeCall (a : Addr) (c : BlockCell) : List Event :=
  match blockDescriptor2 c.layout with
  | some desc => [.disposeHelper (desc.getD 1 0) a]
  | none => []

theorem blockDeath_eq (a : Addr) (c : BlockCell) :
    blockDeath a c = disposeCall a c ++ [.destructInstance a, .freeBlock a] := by
  unfold blockDeath disposeCall
  cases blockDescriptor2 c.layout <;> rfl

theorem history_disposeCall (r : Ref) (a : Addr) (c : BlockCell) :
    history r (disposeCall a c) = if r = .block a then disposeCall a c else [] := by
  unfold disposeCall
  cases blockDescriptor2 c.layout with
  | none => simp [history]
  | some desc => simp [history_single, Event.subject, eq_comm]

/-- The memory after the verdict on the block `a`: the word is `v`, and the
dispose helper is about to run. -/
def Mem.condemn (s : Mem) (a : Addr) (c : BlockCell) (v : Flags) : Mem :=
  { s.setBlock a (c.withFlags v) with trace := s.trace ++ disposeCall a c }

/-- The memory after the end of the block `a`. -/
def Mem.destruct (s : Mem) (a : Addr) : Mem :=
  ((s.log (.destructInstance a)).eraseBlock a).log (.freeBlock a)

theorem Mem.destruct_trace (s : Mem) (a : Addr) :
    (s.destruct a).trace = s.trace ++ [.destructInstance a, .freeBlock a] := by
  simp [Mem.destruct]

@[simp] theorem Mem.destruct_blocks_self (s : Mem) (a : Addr) : (s.destruct a).blocks a = none := by
  simp [Mem.destruct]

theorem Mem.destruct_blocks_ne (s : Mem) {a b : Addr} (h : b ≠ a) :
    (s.destruct a).blocks b = s.blocks b := by
  simp [Mem.destruct, h]

@[simp] theorem Mem.destruct_byrefs (s : Mem) (a : Addr) : (s.destruct a).byrefs = s.byrefs := rfl

theorem Mem.condemn_blocks_ne (s : Mem) {a b : Addr} (c : BlockCell) (v : Flags) (h : b ≠ a) :
    (s.condemn a c v).blocks b = s.blocks b := by
  simp [Mem.condemn, h]

@[simp] theorem Mem.condemn_blocks_self (s : Mem) (a : Addr) (c : BlockCell) (v : Flags) :
    (s.condemn a c v).blocks a = some (c.withFlags v) := by
  simp [Mem.condemn]

@[simp] theorem Mem.condemn_byrefs (s : Mem) (a : Addr) (c : BlockCell) (v : Flags) :
    (s.condemn a c v).byrefs = s.byrefs := rfl

theorem history_condemn_ne {r : Ref} (hr : r ≠ .block a) (s : Mem) (c : BlockCell) (v : Flags) :
    history r (s.condemn a c v).trace = history r s.trace := by
  show history r (s.trace ++ disposeCall a c) = _
  rw [history_append, history_disposeCall, if_neg hr, List.append_nil]

theorem history_destruct_ne {r : Ref} (hr : r ≠ .block a) (t : Mem) :
    history r (t.destruct a).trace = history r t.trace := by
  simp [Mem.destruct_trace, history, Event.subject, Ne.symm hr]

/-- A block is condemned, what it owned is given up, and its memory is
freed. -/
theorem Shrinks.blockDeath {c : BlockCell} {v : Flags} (hc : s.blocks a = some c) (hl : c.Live)
    (hd : ¬(c.withFlags v).Live) (h : Shrinks (s.condemn a c v) t f) :
    Shrinks s (t.destruct a) f where
  next := h.next
  mallocs := h.mallocs
  block b d hb := by
    by_cases hba : b = a
    · subst hba
      rw [hc, Option.some.injEq] at hb
      subst hb
      refine Or.inr ⟨by simp, hl, ?_⟩
      have hh := h.history_dead (Mem.condemn_blocks_self s b c v) hd
      have hcall : history (.block b) (s.condemn b c v).trace =
          history (.block b) s.trace ++ disposeCall b c := by
        show history (.block b) (s.trace ++ disposeCall b c) = _
        rw [history_append, history_disposeCall, if_pos rfl]
      rw [Mem.destruct_trace, history_append, hh, hcall, blockDeath_eq, List.append_assoc]
      simp [history, Event.subject]
    · have hne : Ref.block b ≠ .block a := by simp [hba]
      rw [history_destruct_ne hne, ← history_condemn_ne hne s c v, Mem.destruct_blocks_ne t hba]
      refine h.block b d ?_
      rw [Mem.condemn_blocks_ne s c v hba, hb]
  block_none b hb := by
    have hba : b ≠ a := fun he => by
      rw [he, hc] at hb
      cases hb
    have hne : Ref.block b ≠ .block a := by simp [hba]
    rw [history_destruct_ne hne, ← history_condemn_ne hne s c v, Mem.destruct_blocks_ne t hba]
    refine h.block_none b ?_
    rw [Mem.condemn_blocks_ne s c v hba, hb]
  byref b d hb := by
    rw [history_destruct_ne (by simp), ← history_condemn_ne (by simp) s c v]
    exact h.byref b d hb
  byref_none b hb := by
    rw [history_destruct_ne (by simp), ← history_condemn_ne (by simp) s c v]
    exact h.byref_none b hb
  object o := by
    rw [history_destruct_ne (by simp), ← history_condemn_ne (by simp) s c v]
    exact h.object o

theorem graphOf_condemn {c : BlockCell} {v : Flags} (hd : ¬(c.withFlags v).Live) :
    graphOf (s.condemn a c v) = (graphOf s).erase (.block a) := graphOf_setBlock_dead s hd

theorem graphOf_destruct {c : BlockCell} (hc : t.blocks a = some c) (hl : ¬c.Live) :
    graphOf (t.destruct a) = graphOf t := by
  show graphOf (t.eraseBlock a) = graphOf t
  rw [graphOf_eraseBlock]
  exact Graph.erase_of_none (nodeAt_block_dead hc hl)

/-- A well formed block may be stored at an address that no `__block` record
has. -/
theorem Rep.storeBlock (hs : Rep s) {d : BlockCell} (hlt : a < s.next) (hnull : a ≠ NULL)
    (hfree : s.byrefs a = none) (hd : d.Ok a) : Rep (s.setBlock a d) := by
  have hcell : ∀ b d', (s.setBlock a d).blocks b = some d' →
      (b = a ∧ d' = d) ∨ s.blocks b = some d' := by
    intro b d' hd'
    by_cases hba : b = a
    · subst hba
      rw [Mem.setBlock_blocks_self, Option.some.injEq] at hd'
      exact Or.inl ⟨rfl, hd'.symm⟩
    · rw [Mem.setBlock_blocks_ne s _ hba] at hd'
      exact Or.inr hd'
  refine ⟨hs.next_pos, ?_, hs.byref_null, ?_, hs.byref_lt, ?_, ?_, hs.byref_ok, hs.forwarding_lt,
    hs.forwarding_inj⟩
  · rw [Mem.setBlock_blocks_ne s _ hnull.symm]
    exact hs.block_null
  · intro b d' hd'
    rcases hcell b d' hd' with ⟨rfl, _⟩ | hd'
    · exact hlt
    · exact hs.block_lt b d' hd'
  · intro b d' hd'
    rcases hcell b d' hd' with ⟨rfl, _⟩ | hd'
    · exact hfree
    · exact hs.disjoint b d' hd'
  · intro b d' hd'
    rcases hcell b d' hd' with ⟨rfl, rfl⟩ | hd'
    · exact hd
    · exact hs.block_ok b d' hd'

theorem Rep.ne_null (hs : Rep s) {c : BlockCell} (hc : s.blocks a = some c) : a ≠ NULL := by
  intro h
  have hnull := hs.block_null
  rw [← h, hc] at hnull
  cases hnull

/-- A block may be replaced by another that is well formed. -/
theorem Rep.setBlock (hs : Rep s) {c d : BlockCell} (hc : s.blocks a = some c) (hd : d.Ok a) :
    Rep (s.setBlock a d) :=
  hs.storeBlock (hs.block_lt a c hc) (hs.ne_null hc) (hs.disjoint a c hc) hd

theorem Rep.setBlock_flags (hs : Rep s) {c : BlockCell} {v : Flags} (hc : s.blocks a = some c)
    (hv : high v = high c.layout.flags) : Rep (s.setBlock a (c.withFlags v)) :=
  hs.setBlock hc ((hs.block_ok a c hc).withFlags hv)

end

/-! ## The runtime releases -/

/-- What `_Block_object_dispose` calls for the flags values of block helpers. -/
theorem blockObjectDisposeBody_kind (releaseObject blockRelease blockByrefRelease : Addr → M Unit)
    (object : Addr) {k : FieldKind} {flags : Flags} : k.flags = some flags →
    blockObjectDisposeBody releaseObject blockRelease blockByrefRelease object flags =
      match k with
      | .plain => pure ()
      | .object => releaseObject object
      | .block => blockRelease object
      | .byref => blockByrefRelease object
      | .weakByref => blockByrefRelease object := by
  intro h
  cases k <;> cases h <;> rfl

/-- The flags values of `__block` helpers make `_Block_object_dispose` return
at once. -/
theorem blockObjectDisposeBody_caller (releaseObject blockRelease blockByrefRelease : Addr → M Unit)
    (object : Addr) {flags : Flags} (h : flags ∈ byrefHelperFlags) :
    blockObjectDisposeBody releaseObject blockRelease blockByrefRelease object flags = pure () := by
  simp only [byrefHelperFlags, List.mem_cons, List.not_mem_nil, or_false] at h
  rcases h with rfl | rfl | rfl | rfl <;> rfl

section

variable {s t : Mem} {scope : Finset Addr} {w : Multiset Ref} {a : Addr} {f : Multiset Ref}

/-- The destroy helper of a `__block` record leaves the memory alone. -/
theorem byrefDestroyHelper_ok {c : ByrefCell} {h : BlockByref2} (n : Nat)
    (blockRelease : Addr → M Unit) (hc : s.byrefs a = some c) (hh : c.byref.byref2 = some h)
    (hok : h.Ok c.byref.storage) :
    byrefDestroyHelper (blockObjectDisposeN (n + 1)) blockRelease a s = .ok ((), s) := by
  obtain ⟨field, flags, hd, hflags, hlt⟩ := hok.destroy
  unfold byrefDestroyHelper
  rw [bind_ok (loadByref_ok hc)]
  simp only [hh, hd]
  rw [bind_ok (wordAt_ok (List.getElem?_eq_getElem hlt) s), blockObjectDisposeN_succ,
    blockObjectDisposeBody_caller _ _ _ _ hflags]
  rfl

/-- What follows the verdict on a `__block` record: the destroy helper and
`free`. -/
theorem byrefDealloc_ok {c : ByrefCell} {v : Flags} (n : Nat) (hok : c.Ok a)
    (hv : high v = high c.byref.flags) (hc : s.byrefs a = some (c.withFlags v)) :
    ∃ t, (do
      let target ← loadByref a
      if target.flags &&& BLOCK_BYREF_HAS_COPY_DISPOSE ≠ 0 then do
        log (.byrefDestroy a)
        byrefDestroyHelper (blockObjectDisposeN (n + 1)) (blockReleaseN (n + 1)) a
        freeByref a
      else freeByref a : M Unit) s = .ok ((), t) ∧
      t = { s with
        byrefs := Function.update s.byrefs a none, trace := s.trace ++ byrefDeath a c } := by
  have hhas : v &&& BLOCK_BYREF_HAS_COPY_DISPOSE = c.byref.flags &&& BLOCK_BYREF_HAS_COPY_DISPOSE :=
    and_eq_of_high_eq hv _ (by decide)
  rw [bind_ok (loadByref_ok hc)]
  simp only [ByrefCell.withFlags, hhas, byrefDeath]
  by_cases hz : c.byref.flags &&& BLOCK_BYREF_HAS_COPY_DISPOSE = 0
  · simp only [hz, ne_eq, not_true, if_false]
    exact ⟨_, freeByref_ok hc, rfl⟩
  · obtain ⟨h, hh⟩ := Option.isSome_iff_exists.1 (hok.byref2.1 hz)
    have hc' : (s.log (.byrefDestroy a)).byrefs a = some (c.withFlags v) := hc
    simp only [hz, ne_eq, not_false_eq_true, if_true]
    rw [bind_ok (log_apply _ _), bind_ok (byrefDestroyHelper_ok n _ hc' hh (hok.helpers h hh))]
    refine ⟨_, freeByref_ok hc', ?_⟩
    simp [Mem.log, Mem.eraseByref]

/-- `_Block_byref_release` on a heap record. -/
theorem blockByrefReleaseN_spec {n : Nat} (hs : Rep s)
    (hw : Counted s scope (.byref a ::ₘ w)) (hn : (graphOf s).support.card ≤ n) :
    ∃ t, blockByrefReleaseN n a s = .ok ((), t) ∧ Released s {.byref a} t := by
  obtain ⟨c, hc, ha, hl⟩ := hw.byref_cases (Multiset.mem_cons_self _ w)
  have hpos := hw.refcount_pos_byref (Multiset.mem_cons_self _ w) hc ha hl
  have hok := hs.byref_ok a c hc
  have hforward : c.byref.forwarding = a := hok.heap hl.1
  have hfree : c.byref.flags &&& BLOCK_BYREF_NEEDS_FREE ≠ 0 := hok.needsFree.2 hl.1
  have hcount : c.byref.flags &&& BLOCK_REFCOUNT_MASK ≠ 0 := fun h => by
    rw [and_refcount_mask_eq_zero] at h
    omega
  have hnode : (graphOf s).node (.byref a) = some (byrefNode c) := nodeAt_byref hc ha hl
  obtain ⟨m, rfl⟩ : ∃ m, n = m + 1 :=
    Nat.exists_eq_add_one.2
      ((Finset.card_pos.2 ⟨_, Graph.mem_support_of_node hnode⟩).trans_le hn)
  unfold blockByrefReleaseN blockByrefReleaseBody
  rw [bind_ok (loadByref_ok hc), hforward, bind_ok (loadByref_ok hc), if_pos hfree]
  simp only [hcount, if_false]
  by_cases hlatch : refcount c.byref.flags = latched
  · -- latched high
    rw [bind_ok (loopByrefFlags_ok hc _ (decr_run_latched hlatch)), ByrefCell.withFlags_flags,
      Mem.setByref_same hc]
    exact ⟨s, rfl, 0, Drains.latched hnode hlatch, Shrinks.refl s⟩
  by_cases hone : refcount c.byref.flags = 1
  · -- the verdict
    obtain ⟨_, hdead, hhigh⟩ := sub_one_views hone hl.2
    rw [bind_ok (loopByrefFlags_ok hc _ (decr_run_last hone hl.2))]
    obtain ⟨t, ht, rfl⟩ := byrefDealloc_ok m hok hhigh
      (Mem.setByref_byrefs_self s a (c.withFlags (c.byref.flags - 1)))
    refine ⟨_, ht, 0, ?_, Shrinks.freeByref hc hl rfl rfl rfl (Function.update_idem _ _ _) rfl⟩
    refine Drains.last hnode hlatch hone ?_
    show Drains latched _ _ (graphOf ((s.setByref a _).eraseByref a)) 0
    have hlive : ¬(c.withFlags (c.byref.flags - 1)).Live := fun h => by
      have hfalse := h.2
      rw [show (c.withFlags (c.byref.flags - 1)).byref.flags = c.byref.flags - 1 from rfl,
        hdead] at hfalse
      cases hfalse
    rw [graphOf_eraseByref, graphOf_setByref_dead s hlive,
      Graph.erase_of_none (Graph.node_erase_self _ _)]
    exact Drains.nil latched _
  · -- one of several references
    have hmany : 1 < refcount c.byref.flags := by omega
    obtain ⟨hsub, hmeta⟩ := sub_two_views (show refcount c.byref.flags ≠ 0 by omega)
    rw [bind_ok (loopByrefFlags_ok hc _ (decr_run_shared hlatch hmany))]
    refine ⟨s.setByref a (c.withFlags (c.byref.flags - 2)), rfl, 0, ?_,
      Shrinks.setByref_flags hc hl hmeta⟩
    rw [graphOf_setByref_live s ha ((ByrefCell.live_withFlags hmeta).2 hl)]
    have hset : byrefNode (c.withFlags (c.byref.flags - 2)) =
        { byrefNode c with count := (byrefNode c).count - 1 } := by
      unfold byrefNode ByrefCell.withFlags
      rw [hsub]
    rw [hset]
    exact Drains.shared hnode hlatch hmany

/-- What `_Block_release` does to a counted reference within the recursion
bound `n`. -/
def ReleasesBlocks (n : Nat) : Prop :=
  ∀ (s : Mem) (scope : Finset Addr) (w : Multiset Ref) (b : Addr), Rep s →
    Counted s scope (.block b ::ₘ w) → (graphOf s).support.card ≤ n →
    ∃ t, blockReleaseN n b s = .ok ((), t) ∧ Released s {.block b} t

/-- One captured variable is given up. -/
theorem disposeCapture_spec {n : Nat} (hrel : ReleasesBlocks n) {x : Capture} {flags : Flags}
    (hx : x.kind.flags = some flags) (hs : Rep s) (hw : Counted s scope (x.refs + w))
    (hn : (graphOf s).support.card ≤ n) :
    ∃ t, blockObjectDisposeN (n + 1) x.value flags s = .ok ((), t) ∧ Released s x.refs t := by
  rw [blockObjectDisposeN_succ, blockObjectDisposeBody_kind _ _ _ _ hx]
  unfold Capture.refs at hw ⊢
  cases hk : x.kind with
  | plain =>
    rw [hk] at hx
    cases hx
  | object => exact ⟨_, log_apply _ _, Released.releaseObject s x.value⟩
  | block =>
    rw [hk] at hw
    exact hrel s scope w x.value hs hw hn
  | byref =>
    rw [hk] at hw
    exact blockByrefReleaseN_spec hs hw hn
  | weakByref =>
    rw [hk] at hw
    exact blockByrefReleaseN_spec hs hw hn

/-- The captured variables are given up one after the other. -/
theorem disposeFields_spec {n : Nat} (hrel : ReleasesBlocks n) (xs : List Capture) :
    ∀ (s : Mem), Rep s → Counted s scope (ownedRefs xs + w) → (graphOf s).support.card ≤ n →
      ∃ t, disposeFields (blockObjectDisposeN (n + 1)) xs s = .ok ((), t) ∧
        Released s (ownedRefs xs) t := by
  induction xs with
  | nil => exact fun s _ _ _ => ⟨s, rfl, Released.nil s⟩
  | cons x xs ih =>
    intro s hs hw hn
    rw [ownedRefs, add_assoc] at hw
    rw [disposeFields]
    cases hk : x.kind.flags with
    | none =>
      have hx : x.refs = 0 := by
        rw [Capture.refs, FieldKind.eq_plain hk]
      rw [hx, zero_add] at hw
      simp only
      rw [ownedRefs, hx, zero_add]
      exact ih s hs hw hn
    | some flags =>
      obtain ⟨s₁, h₁, hr₁⟩ := disposeCapture_spec hrel hk hs hw hn
      obtain ⟨s₂, h₂, hr₂⟩ := ih s₁ (hr₁.rep hs) (hr₁.counted hw) (hr₁.card_le.trans hn)
      refine ⟨s₂, ?_, ?_⟩
      · simp only
        rw [bind_ok h₁]
        exact h₂
      · rw [ownedRefs]
        exact hr₁.add hr₂

/-- A block without helpers owns nothing. -/
theorem BlockCell.Ok.ownedRefs_eq_zero {c : BlockCell} (hok : c.Ok a)
    (h : blockDescriptor2 c.layout = none) : ownedRefs c.layout.captured = 0 := by
  refine ownedRefs_plain (hok.helpers ?_)
  unfold blockDescriptor2 at h
  by_contra hne
  rw [if_neg hne] at h
  cases h

/-- What `_Block_call_dispose_helper` comes to after the verdict on a block. -/
theorem blockCallDisposeHelper_condemn (disposeHelper : Addr → M Unit) {c : BlockCell} {v : Flags}
    (hdescriptor : c.layout.flags &&& BLOCK_HAS_COPY_DISPOSE ≠ 0 → 4 ≤ c.layout.descriptor.length)
    (hv : high v = high c.layout.flags) :
    blockCallDisposeHelper disposeHelper a (s.setBlock a (c.withFlags v)) =
      match blockDescriptor2 c.layout with
      | none => .ok ((), s.condemn a c v)
      | some _ => disposeHelper a (s.condemn a c v) := by
  have hhas := and_eq_of_high_eq hv BLOCK_HAS_COPY_DISPOSE (by decide)
  have hdesc : blockDescriptor2 (c.withFlags v).layout = blockDescriptor2 c.layout := by
    simp only [blockDescriptor2, BlockCell.withFlags, hhas]
  have hc₁ := Mem.setBlock_blocks_self s a (c.withFlags v)
  unfold blockCallDisposeHelper
  rw [bind_ok (loadBlock_ok hc₁), hdesc]
  cases hd : blockDescriptor2 c.layout with
  | none =>
    have hcond : s.condemn a c v = s.setBlock a (c.withFlags v) := by
      simp [Mem.condemn, disposeCall, hd, Mem.setBlock]
    rw [hcond]
    rfl
  | some desc =>
    have hflag : c.layout.flags &&& BLOCK_HAS_COPY_DISPOSE ≠ 0 := fun h => by
      rw [blockDescriptor2, if_pos h] at hd
      cases hd
    have hlen := hdescriptor hflag
    have hword : desc[1]? = some (desc.getD 1 0) := by
      rw [blockDescriptor2, if_neg hflag, Option.some.injEq] at hd
      subst hd
      rw [List.getD_eq_getElem?_getD, List.getElem?_eq_getElem (by simp; omega)]
      rfl
    have hcond : s.condemn a c v =
        (s.setBlock a (c.withFlags v)).log (.disposeHelper (desc.getD 1 0) a) := by
      simp [Mem.condemn, disposeCall, hd, Mem.setBlock, Mem.log]
    rw [hcond]
    simp only
    rw [bind_ok (wordAt_ok hword _), bind_ok (log_apply _ _)]

/-- What follows the verdict on a block, up to `destructInstance`. -/
theorem callDisposeHelper_spec {n : Nat} (hrel : ReleasesBlocks n) {c : BlockCell} {v : Flags}
    (hok : c.Ok a) (hv : high v = high c.layout.flags) (hs : Rep (s.condemn a c v))
    (hw : Counted (s.condemn a c v) scope (ownedRefs c.layout.captured + w))
    (hn : (graphOf (s.condemn a c v)).support.card ≤ n) :
    ∃ t, blockCallDisposeHelper (disposeHelper (blockObjectDisposeN (n + 1))) a
        (s.setBlock a (c.withFlags v)) = .ok ((), t) ∧
      Released (s.condemn a c v) (ownedRefs c.layout.captured) t := by
  rw [blockCallDisposeHelper_condemn _ hok.descriptor hv]
  cases hd : blockDescriptor2 c.layout with
  | none =>
    rw [hok.ownedRefs_eq_zero hd]
    exact ⟨_, rfl, Released.nil _⟩
  | some desc =>
    obtain ⟨t, ht, hr⟩ := disposeFields_spec hrel c.layout.captured _ hs hw hn
    refine ⟨t, ?_, hr⟩
    simp only
    rw [disposeHelper, bind_ok (loadBlock_ok (Mem.condemn_blocks_self s a c v))]
    exact ht

/-- The counting discipline after the verdict: what the block owned is
pending. -/
theorem Counted.condemn {c : BlockCell} {v : Flags} (hw : Counted s scope (.block a ::ₘ w))
    (hc : s.blocks a = some c) (ha : a < s.next) (hl : c.Live) (hone : refcount c.layout.flags = 1)
    (hd : ¬(c.withFlags v).Live) :
    Counted (s.condemn a c v) scope (ownedRefs c.layout.captured + w) := by
  have hnode : (graphOf s).node (.block a) = some (blockNode c) := nodeAt_block hc ha hl
  have houter : External (s.condemn a c v) = External s := by
    funext r
    cases r with
    | block b =>
      by_cases hba : b = a
      · subst hba
        simp [External, hc, BlockCell.withFlags]
      · simp [External, Mem.condemn_blocks_ne s c v hba]
    | byref b => rfl
    | object o => rfl
  have htop : refcount c.layout.flags ≠ latched := by
    rw [hone]
    decide
  have hdrop := Sound.drop (a := .block a) (w := scopeRefs s scope + w)
    (by rw [← Multiset.add_cons]; exact hw)
  rw [Graph.drop_last hnode htop hone] at hdrop
  rw [Counted, houter, graphOf_condemn hd]
  rw [add_left_comm] at hdrop
  exact hdrop

/-- `_Block_release` on a block that is not on the heap. -/
theorem blockReleaseN_external (n : Nat) {b : Addr} (hs : Rep s) (h : External s (.block b)) :
    blockReleaseN n b s = .ok ((), s) := by
  unfold blockReleaseN blockReleaseBody
  rcases h with rfl | ⟨c, hc, hg⟩
  · rfl
  · rw [if_neg (hs.ne_null hc), bind_ok (loadBlock_ok hc),
      if_pos ((hs.block_ok b c hc).isGlobal.2 hg)]
    rfl

/-- One level of the recursion.  A verdict takes a node out of the graph, so
the nested calls get by with a smaller bound. -/
theorem releasesBlocks_step {n : Nat} (ih : ∀ m, n = m + 1 → ReleasesBlocks m) :
    ReleasesBlocks n := by
  intro s scope w b hs hw hn
  rcases hw.mem_cases (Multiset.mem_cons_self _ w) with hnode | hext
  swap
  · exact ⟨s, blockReleaseN_external n hs hext, {.block b}, Drains.outer (hw.outer_none _ hext),
      { Shrinks.refl s with object := fun o => by simp }⟩
  obtain ⟨nd, hnode⟩ := Option.ne_none_iff_exists'.1 hnode
  obtain ⟨c, hc, ha, hl, rfl⟩ := nodeAt_block_some hnode
  have hpos := hw.refcount_pos_block (Multiset.mem_cons_self _ w) hc ha hl
  have hok := hs.block_ok b c hc
  have hne := hs.ne_null hc
  have hglobal : ¬(c.layout.flags &&& BLOCK_IS_GLOBAL ≠ 0) := fun h => by
    have := hok.isGlobal.1 h
    rw [hl.1] at this
    cases this
  have hheap : ¬(c.layout.flags &&& BLOCK_NEEDS_FREE = 0) := hok.needsFree.2 hl.1
  unfold blockReleaseN blockReleaseBody
  rw [if_neg hne, bind_ok (loadBlock_ok hc), if_neg hglobal, if_neg hheap]
  by_cases hlatch : refcount c.layout.flags = latched
  · -- latched high
    rw [bind_ok (loopBlockFlags_ok hc _ (decr_run_latched hlatch)), BlockCell.withFlags_flags,
      Mem.setBlock_same hc]
    exact ⟨s, rfl, 0, Drains.latched hnode hlatch, Shrinks.refl s⟩
  by_cases hone : refcount c.layout.flags = 1
  · -- the verdict
    obtain ⟨m, rfl⟩ : ∃ m, n = m + 1 :=
      Nat.exists_eq_add_one.2
        ((Finset.card_pos.2 ⟨_, Graph.mem_support_of_node hnode⟩).trans_le hn)
    obtain ⟨_, hdead, hhigh⟩ := sub_one_views hone hl.2.2
    have hlive : ¬(c.withFlags (c.layout.flags - 1)).Live := fun h => by
      have hfalse := h.2.2
      rw [show (c.withFlags (c.layout.flags - 1)).layout.flags = c.layout.flags - 1 from rfl,
        hdead] at hfalse
      cases hfalse
    have hs₁ : Rep (s.condemn b c (c.layout.flags - 1)) :=
      (hs.setBlock_flags hc hhigh).of_eq rfl rfl rfl
    have hn₁ : (graphOf (s.condemn b c (c.layout.flags - 1))).support.card ≤ m := by
      rw [graphOf_condemn hlive]
      exact Graph.card_erase_le hnode hn
    obtain ⟨t, ht, hr⟩ := callDisposeHelper_spec (ih m rfl) hok hhigh hs₁
      (hw.condemn hc ha hl hone hlive) hn₁
    obtain ⟨f, hd, hsh⟩ := hr
    have hct := hsh.block_dead (Mem.condemn_blocks_self s b c _) hlive
    refine ⟨t.destruct b, ?_, f, ?_, hsh.blockDeath hc hl hlive⟩
    · rw [bind_ok (loopBlockFlags_ok hc _ (decr_run_last hone hl.2.2)), if_pos rfl, bind_ok ht,
        bind_ok (log_apply _ _)]
      exact freeBlock_ok hct
    · rw [graphOf_condemn hlive] at hd
      rw [graphOf_destruct hct hlive]
      exact Drains.last hnode hlatch hone hd
  · -- one of several references
    have hmany : 1 < refcount c.layout.flags := by omega
    obtain ⟨hsub, hmeta⟩ := sub_two_views (show refcount c.layout.flags ≠ 0 by omega)
    rw [bind_ok (loopBlockFlags_ok hc _ (decr_run_shared hlatch hmany))]
    refine ⟨s.setBlock b (c.withFlags (c.layout.flags - 2)), rfl, 0, ?_,
      Shrinks.setBlock_flags hc hl hmeta⟩
    rw [graphOf_setBlock_live s ha ((BlockCell.live_withFlags hmeta).2 hl)]
    have hset : blockNode (c.withFlags (c.layout.flags - 2)) =
        { blockNode c with count := (blockNode c).count - 1 } := by
      unfold blockNode BlockCell.withFlags
      rw [hsub]
    rw [hset]
    exact Drains.shared hnode hlatch hmany

/-- `_Block_release` on a counted reference. -/
theorem blockReleaseN_spec (n : Nat) : ReleasesBlocks n := by
  induction n with
  | zero => exact releasesBlocks_step fun m h => by cases h
  | succ n ih => exact releasesBlocks_step fun m h => by cases h; exact ih

/-- The graph has at most one node for each address and kind. -/
theorem card_graphOf_le (s : Mem) : (graphOf s).support.card ≤ releaseFuel s := by
  refine (Finset.card_filter_le _ _).trans ((Finset.card_union_le _ _).trans ?_)
  have hb := Finset.card_image_le (s := Finset.range s.next) (f := Ref.block)
  have hy := Finset.card_image_le (s := Finset.range s.next) (f := Ref.byref)
  rw [Finset.card_range] at hb hy
  unfold releaseFuel
  omega

/-- `_Block_release` on a reference that the client holds. -/
theorem blockRelease_spec {b : Addr} (hs : Rep s) (hw : Counted s scope (.block b ::ₘ w)) :
    ∃ t, blockRelease b s = .ok ((), t) ∧ Released s {.block b} t :=
  blockReleaseN_spec (releaseFuel s) s scope w b hs hw (card_graphOf_le s)

/-! ## The end of a scope -/

/-- A variable that leaves the scope hands over its reference. -/
theorem scopeRefs_erase (s : Mem) {v : Addr} (hv : v ∈ scope) :
    scopeRefs s scope = scopeRef s v + scopeRefs s (scope.erase v) :=
  (Finset.add_sum_erase scope (scopeRef s) hv).symm

theorem Counted.endScope {v : Addr} (hw : Counted s scope w) (hv : v ∈ scope) :
    Counted s (scope.erase v) (scopeRef s v + w) := by
  rw [Counted, scopeRefs_erase s hv] at hw
  rw [Counted, add_left_comm, ← add_assoc]
  exact hw

theorem scopeRef_moved {v : Addr} {c : ByrefCell} (hc : s.byrefs v = some c)
    (hs : c.storage = .stack) (hf : c.byref.forwarding ≠ v) :
    scopeRef s v = {.byref c.byref.forwarding} := by
  simp [scopeRef, hc, hs, hf]

/-- A variable in scope that has moved has a live record on the heap. -/
theorem Counted.variable_cases {v : Addr} {c : ByrefCell} (hw : Counted s scope w) (hv : v ∈ scope)
    (hc : s.byrefs v = some c) (hs : c.storage = .stack) (hf : c.byref.forwarding ≠ v) :
    ∃ d, s.byrefs c.byref.forwarding = some d ∧ d.Live := by
  have hw' := hw.endScope hv
  rw [scopeRef_moved hc hs hf] at hw'
  obtain ⟨d, hd, _, hl⟩ := hw'.byref_cases (Multiset.mem_cons_self _ w)
  exact ⟨d, hd, hl⟩

theorem scopeRef_unmoved {v : Addr} {c : ByrefCell} (hc : s.byrefs v = some c)
    (hf : c.byref.forwarding = v) : scopeRef s v = 0 := by
  simp [scopeRef, hc, hf]

/-- `_Block_byref_release` follows the forwarding pointer. -/
theorem blockByrefReleaseN_forward (n : Nat) {v : Addr} {c d : ByrefCell}
    (hc : s.byrefs v = some c) (hd : s.byrefs c.byref.forwarding = some d)
    (hf : d.byref.forwarding = c.byref.forwarding) :
    blockByrefReleaseN n v s = blockByrefReleaseN n c.byref.forwarding s := by
  unfold blockByrefReleaseN blockByrefReleaseBody
  rw [bind_ok (loadByref_ok hc), bind_ok (loadByref_ok hd)]
  simp only
  rw [bind_ok (loadByref_ok hd), hf, bind_ok (loadByref_ok hd)]

/-- `_Block_byref_release` on a record that is still on the stack. -/
theorem blockByrefReleaseN_unmoved (n : Nat) {v : Addr} {c : ByrefCell} (hs : Rep s)
    (hc : s.byrefs v = some c) (hst : c.storage = .stack) (hf : c.byref.forwarding = v) :
    blockByrefReleaseN n v s = .ok ((), s) := by
  have hfree : ¬(c.byref.flags &&& BLOCK_BYREF_NEEDS_FREE ≠ 0) := fun h => by
    have hheap := (hs.byref_ok v c hc).needsFree.1 h
    rw [hst] at hheap
    cases hheap
  unfold blockByrefReleaseN blockByrefReleaseBody
  rw [bind_ok (loadByref_ok hc), hf, bind_ok (loadByref_ok hc), if_neg hfree]
  rfl

/-- The compiler ends the scope of a `__block` variable with one of two flags
values. -/
def scopeExitFlags : List Flags :=
  [BLOCK_FIELD_IS_BYREF, BLOCK_FIELD_IS_BYREF ||| BLOCK_FIELD_IS_WEAK]

/-- `_Block_object_dispose` at the end of the scope of `v`. -/
theorem scopeExit_spec {v : Addr} {c : ByrefCell} {flags : Flags} (hs : Rep s)
    (hw : Counted s scope w) (hv : v ∈ scope) (hc : s.byrefs v = some c)
    (hst : c.storage = .stack) (hflags : flags ∈ scopeExitFlags) :
    ∃ t, blockObjectDispose v flags s = .ok ((), t) ∧ Released s (scopeRef s v) t := by
  have hbody : blockObjectDispose v flags s = blockByrefReleaseN (releaseFuel s) v s := by
    simp only [scopeExitFlags, List.mem_cons, List.not_mem_nil, or_false] at hflags
    rcases hflags with rfl | rfl <;> rfl
  rw [hbody]
  by_cases hf : c.byref.forwarding = v
  · rw [scopeRef_unmoved hc hf]
    exact ⟨s, blockByrefReleaseN_unmoved _ hs hc hst hf, Released.nil s⟩
  · have hw' := hw.endScope hv
    rw [scopeRef_moved hc hst hf] at hw' ⊢
    obtain ⟨d, hd, _, hl⟩ := hw'.byref_cases (Multiset.mem_cons_self _ w)
    rw [blockByrefReleaseN_forward _ hc hd ((hs.byref_ok _ d hd).heap hl.1)]
    exact blockByrefReleaseN_spec hs hw' (card_graphOf_le s)

end

end BlocksRuntime
