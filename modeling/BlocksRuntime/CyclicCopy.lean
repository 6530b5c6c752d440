import BlocksRuntime.AllocationFailure
import BlocksRuntime.ByrefLayout
import BlocksRuntime.SharedCell

/-!
# Copying cyclic graphs

A `__block` variable may hold a block that captures the variable, and its keep
helper may copy that block.  Copying ends all the same, because the forwarding
pointer is set before the helper is called.

* `CaptureGraph` is the shape of a memory, without any counting discipline.
* `GraphCopy` says what copying does between two memories.  A variable goes to
  the heap once, since it is either unmoved or has a heap record, and one that
  has a heap record keeps it (`GraphCopy.copies`).
* `Building` is the invariant of the loop that fills a new block.
* `copyNeed` bounds the depth of the recursion: first the number of unmoved
  variables, then the order in which the blocks were created.
-/

namespace BlocksRuntime

/-! ## Capture graphs -/

/-- What `_Block_copy` may be called with. -/
def BlockOrNull (s : Mem) (a : Addr) : Prop := a = NULL ∨ s.blocks a ≠ none

/-- A heap record that is in use. -/
def HeapAt (s : Mem) (h : Addr) : Prop :=
  ∃ d, s.byrefs h = some d ∧ d.storage = .heap ∧ d.byref.forwarding = h ∧
    0 < refcount d.byref.flags

/-- A keep helper finds its field in these words. -/
def ByrefKeep.Fits (s : Mem) (words : List Word) : ByrefKeep → Prop
  | .assign field flags => flags ∈ byrefHelperFlags ∧ field < words.length
  | .copy field => ∃ w, words[field]? = some w ∧ BlockOrNull s w

/-- A block literal at `a`.  The blocks on the stack that it captures were
created before it. -/
structure StackBlock (s : Mem) (a : Addr) (b : BlockLayout) : Prop where
  notFree : b.flags &&& BLOCK_NEEDS_FREE = 0
  notGlobal : b.flags &&& BLOCK_IS_GLOBAL = 0
  helpers : b.flags &&& BLOCK_HAS_COPY_DISPOSE = 0 → ∀ x ∈ b.captured, x.kind = .plain
  descriptor : b.flags &&& BLOCK_HAS_COPY_DISPOSE ≠ 0 → 4 ≤ b.descriptor.length
  blocks : ∀ x ∈ b.captured, x.kind = .block → BlockOrNull s x.value
  older : ∀ x ∈ b.captured, x.kind = .block → ∀ d, s.blocks x.value = some d →
    d.storage = .stack → x.value < a
  byrefs : ∀ x ∈ b.captured, x.kind.isByref → s.byrefs x.value ≠ none

/-- The record at `v` of a variable that has not moved. -/
structure StackVariable (s : Mem) (v : Addr) (c : ByrefCell) : Prop where
  storage : c.storage = .stack
  count : refcount c.byref.flags = 0
  forwarding : c.byref.forwarding = v
  keep : c.byref.flags &&& BLOCK_BYREF_HAS_COPY_DISPOSE ≠ 0 →
    ∃ h, c.byref.byref2 = some h ∧ h.byrefKeep.Fits s c.byref.storage

/-- A memory of blocks and `__block` records that may be copied. -/
structure CaptureGraph (s : Mem) : Prop where
  block_lt : ∀ a c, s.blocks a = some c → a < s.next
  byref_lt : ∀ v c, s.byrefs v = some c → v < s.next
  literal : ∀ a c, s.blocks a = some c → c.storage = .stack → StackBlock s a c.layout
  shared : ∀ a c, s.blocks a = some c → c.storage ≠ .stack →
    c.layout.flags &&& BLOCK_NEEDS_FREE ≠ 0 ∨ c.layout.flags &&& BLOCK_IS_GLOBAL ≠ 0
  byref : ∀ v c, s.byrefs v = some c → StackVariable s v c ∨ HeapAt s c.byref.forwarding

/-- The heap record of the variable `v`, if it has one. -/
def heapOf (s : Mem) (v : Addr) : List Addr :=
  match s.byrefs v with
  | none => []
  | some c => if c.storage = .stack ∧ c.byref.forwarding = v then [] else [c.byref.forwarding]

/-- The variable of `x` is the record that `y` points to. -/
def FieldCopy (s : Mem) (x y : Capture) : Prop :=
  y.kind = x.kind ∧ (x.kind.isByref → heapOf s x.value = [y.value])

/-- The block `d` at `a` is the copy of a literal. -/
def BuiltFrom (s t : Mem) (events : List Event) (a : Addr) (d : BlockLayout) : Prop :=
  ∃ b c, .mallocBlock b a ∈ events ∧ s.blocks b = some c ∧ c.storage = .stack ∧
    List.Forall₂ (FieldCopy t) c.layout.captured d.captured

/-- The record `d` is `c` with another count, or the variable moved. -/
def Forwarded (t : Mem) (v : Addr) (c d : ByrefCell) : Prop :=
  ∃ w h, d = (c.withFlags w).forward h ∧ high w = high c.byref.flags ∧
    (refcount w = 0 ↔ refcount c.byref.flags = 0) ∧
    (h = c.byref.forwarding ∨ c.storage = .stack ∧ c.byref.forwarding = v ∧ HeapAt t h)

/-- What copying does between `s` and `t`, where the block `hole` is not
finished. -/
structure GraphCopy (hole : Option Addr) (s t : Mem) (events : List Event) : Prop where
  trace : t.trace = s.trace ++ events
  next_le : s.next ≤ t.next
  block : ∀ a c, s.blocks a = some c →
    ∃ w, t.blocks a = some (c.withFlags w) ∧ high w = high c.layout.flags
  byref : ∀ v c, s.byrefs v = some c → ∃ d, t.byrefs v = some d ∧ Forwarded t v c d
  newBlock : ∀ a d, s.blocks a = none → t.blocks a = some d →
    s.next ≤ a ∧ a < t.next ∧ d.storage = .heap ∧ d.layout.flags &&& BLOCK_NEEDS_FREE ≠ 0 ∧
      (hole ≠ some a → BuiltFrom s t events a d.layout)
  newByref : ∀ h d, s.byrefs h = none → t.byrefs h = some d →
    s.next ≤ h ∧ h < t.next ∧ d.storage = .heap ∧ d.byref.forwarding = h ∧
      0 < refcount d.byref.flags
  /-- The records that are allocated for a variable are those it gets. -/
  copies : ∀ v, s.byrefs v ≠ none → heapOf t v = heapOf s v ++ heapCopies v events
  keep_fresh : ∀ h, .byrefKeep h ∈ events → s.next ≤ h ∧ h < t.next
  keep_moved : ∀ h, .byrefKeep h ∈ events → ∃ v, .mallocByref v h ∈ events
  keep_once : ∀ h, events.count (.byrefKeep h) ≤ 1

section

variable {env : Env} {s t u : Mem} {hole : Option Addr} {ev ev' : List Event} {v h a r : Addr}
  {c d : ByrefCell}

theorem heapOf_some (hc : s.byrefs v = some c) : heapOf s v =
    if c.storage = .stack ∧ c.byref.forwarding = v then [] else [c.byref.forwarding] := by
  rw [heapOf, hc]

theorem heapOf_heap (hc : s.byrefs v = some c) (hheap : c.storage = .heap) :
    heapOf s v = [c.byref.forwarding] := by
  rw [heapOf_some hc, if_neg fun h => by rw [hheap] at h; cases h.1]

theorem heapCopies_append (v : Addr) (l k : List Event) :
    heapCopies v (l ++ k) = heapCopies v l ++ heapCopies v k := by
  simp [heapCopies]

theorem length_heapOf_le (s : Mem) (v : Addr) : (heapOf s v).length ≤ 1 := by
  unfold heapOf
  split
  · exact Nat.zero_le 1
  · split
    · exact Nat.zero_le 1
    · exact Nat.le_refl 1

/-! ## What is kept -/

theorem Forwarded.heap (hf : Forwarded t v c d) (hheap : c.storage = .heap) :
    d.storage = .heap ∧ d.byref.forwarding = c.byref.forwarding ∧
      (refcount d.byref.flags = 0 ↔ refcount c.byref.flags = 0) := by
  obtain ⟨w, h, rfl, _, hcount, rfl | ⟨hst, _⟩⟩ := hf
  · exact ⟨hheap, rfl, hcount⟩
  · rw [hheap] at hst
    cases hst

theorem HeapAt.kept (hh : HeapAt s h) (hg : GraphCopy hole s t ev) : HeapAt t h := by
  obtain ⟨c, hc, hheap, hf, hpos⟩ := hh
  obtain ⟨d, hd, hfwd⟩ := hg.byref h c hc
  obtain ⟨hheap', hf', hcount⟩ := hfwd.heap hheap
  exact ⟨d, hd, hheap', hf'.trans hf, by omega⟩

theorem BlockOrNull.kept (hb : BlockOrNull s a) (hg : GraphCopy hole s t ev) :
    BlockOrNull t a := by
  refine hb.imp id fun hne => ?_
  obtain ⟨c, hc⟩ := Option.ne_none_iff_exists'.1 hne
  obtain ⟨w, hw, _⟩ := hg.block a c hc
  rw [hw]
  exact Option.some_ne_none _

theorem ByrefKeep.Fits.length_pos {words : List Word} {k : ByrefKeep} (hk : k.Fits s words) :
    0 < words.length := by
  cases k with
  | assign field flags => exact Nat.lt_of_le_of_lt (Nat.zero_le field) hk.2
  | copy field =>
    obtain ⟨w, hw, _⟩ := hk
    exact Nat.lt_of_le_of_lt (Nat.zero_le field) (List.getElem?_eq_some_iff.1 hw).1

theorem ByrefKeep.Fits.kept {words : List Word} {k : ByrefKeep} (hk : k.Fits s words)
    (hg : GraphCopy hole s t ev) : k.Fits t words := by
  cases k with
  | assign field flags => exact hk
  | copy field =>
    obtain ⟨w, hw, hb⟩ := hk
    exact ⟨w, hw, hb.kept hg⟩

/-- A stack block after copying was there before. -/
theorem GraphCopy.old_literal (hg : GraphCopy hole s t ev) {d : BlockCell}
    (hd : t.blocks a = some d) (hst : d.storage = .stack) :
    ∃ c w, s.blocks a = some c ∧ c.storage = .stack ∧ d = c.withFlags w ∧
      high w = high c.layout.flags := by
  cases hc : s.blocks a with
  | none =>
    have hheap := (hg.newBlock a d hc hd).2.2.1
    rw [hst] at hheap
    cases hheap
  | some c =>
    obtain ⟨w, hw, hhigh⟩ := hg.block a c hc
    obtain rfl : c.withFlags w = d := Option.some.inj (hw.symm.trans hd)
    exact ⟨c, w, rfl, hst, rfl, hhigh⟩

theorem StackBlock.kept {b : BlockLayout} {w : Flags} (hb : StackBlock s a b)
    (hg : GraphCopy hole s t ev) (hw : high w = high b.flags) :
    StackBlock t a { b with flags := w } where
  notFree := (and_eq_of_high_eq hw _ (by decide)).trans hb.notFree
  notGlobal := (and_eq_of_high_eq hw _ (by decide)).trans hb.notGlobal
  helpers hhas := hb.helpers ((and_eq_of_high_eq hw _ (by decide)).symm.trans hhas)
  descriptor hhas := hb.descriptor fun h =>
    hhas ((and_eq_of_high_eq hw BLOCK_HAS_COPY_DISPOSE (by decide)).trans h)
  blocks x hx hk := (hb.blocks x hx hk).kept hg
  older x hx hk d hd hst := by
    obtain ⟨c, _, hc, hst', _, _⟩ := hg.old_literal hd hst
    exact hb.older x hx hk c hc hst'
  byrefs x hx hk := by
    obtain ⟨c, hc⟩ := Option.ne_none_iff_exists'.1 (hb.byrefs x hx hk)
    obtain ⟨d, hd, _⟩ := hg.byref x.value c hc
    rw [hd]
    exact Option.some_ne_none _

/-- Copying keeps the shape of the memory. -/
theorem GraphCopy.graph (hg : GraphCopy hole s t ev) (hs : CaptureGraph s) : CaptureGraph t where
  block_lt a d hd := by
    cases hc : s.blocks a with
    | none => exact (hg.newBlock a d hc hd).2.1
    | some c => exact Nat.lt_of_lt_of_le (hs.block_lt a c hc) hg.next_le
  byref_lt v d hd := by
    cases hc : s.byrefs v with
    | none => exact (hg.newByref v d hc hd).2.1
    | some c => exact Nat.lt_of_lt_of_le (hs.byref_lt v c hc) hg.next_le
  literal a d hd hst := by
    obtain ⟨c, w, hc, hst', rfl, hw⟩ := hg.old_literal hd hst
    exact (hs.literal a c hc hst').kept hg hw
  shared a d hd hst := by
    cases hc : s.blocks a with
    | none => exact Or.inl (hg.newBlock a d hc hd).2.2.2.1
    | some c =>
      obtain ⟨w, hw, hhigh⟩ := hg.block a c hc
      obtain rfl : c.withFlags w = d := Option.some.inj (hw.symm.trans hd)
      refine (hs.shared a c hc hst).imp (fun hfree h => hfree ?_) fun hglobal h => hglobal ?_
      · exact (and_eq_of_high_eq hhigh BLOCK_NEEDS_FREE (by decide)).symm.trans h
      · exact (and_eq_of_high_eq hhigh BLOCK_IS_GLOBAL (by decide)).symm.trans h
  byref v d hd := by
    cases hc : s.byrefs v with
    | none =>
      obtain ⟨_, _, hheap, hf, hpos⟩ := hg.newByref v d hc hd
      refine Or.inr ⟨d, ?_, hheap, hf.symm ▸ hf, hpos⟩
      rw [hf, hd]
    | some c =>
      obtain ⟨d', hd', w, h, rfl, hw, hcount, hh⟩ := hg.byref v c hc
      obtain rfl := Option.some.inj (hd'.symm.trans hd)
      rcases hh with rfl | ⟨_, _, hheap⟩
      · refine (hs.byref v c hc).imp (fun hv => ?_) fun hheap => hheap.kept hg
        refine ⟨hv.storage, hcount.2 hv.count, hv.forwarding, fun hhas => ?_⟩
        obtain ⟨k, hk, hfits⟩ := hv.keep fun h =>
          hhas ((and_eq_of_high_eq hw BLOCK_BYREF_HAS_COPY_DISPOSE (by decide)).trans h)
        exact ⟨k, hk, hfits.kept hg⟩
      · exact Or.inr hheap

/-! ## Copies one after the other -/

/-- A variable that has a heap record keeps it, and gets no other. -/
theorem GraphCopy.heapOf_kept (hg : GraphCopy hole s t ev) (hh : heapOf s v = [h]) :
    heapOf t v = [h] ∧ heapCopies v ev = [] := by
  have hne : s.byrefs v ≠ none := fun hnone => by
    rw [heapOf, hnone] at hh
    cases hh
  have hcopies := hg.copies v hne
  have hle := length_heapOf_le t v
  rw [hcopies, hh, List.length_append, List.length_singleton] at hle
  have hnil : heapCopies v ev = [] := List.length_eq_zero_iff.1 (by omega)
  rw [hcopies, hh, hnil]
  exact ⟨rfl, rfl⟩

theorem FieldCopy.kept {x y : Capture} (hx : FieldCopy s x y) (hg : GraphCopy hole s t ev) :
    FieldCopy t x y :=
  ⟨hx.1, fun hk => (hg.heapOf_kept (hx.2 hk)).1⟩

theorem Forwarded.trans {e : ByrefCell} (hd : t.byrefs v = some d) (hg : GraphCopy hole t u ev)
    (hf : Forwarded t v c d) (hf' : Forwarded u v d e) : Forwarded u v c e := by
  obtain ⟨w, h, rfl, hw, hcount, hh⟩ := hf
  obtain ⟨w', h', rfl, hw', hcount', hh'⟩ := hf'
  refine ⟨w', h', rfl, hw'.trans hw, hcount'.trans hcount, ?_⟩
  rcases hh' with rfl | ⟨hst, hv, hheap'⟩
  · exact hh.imp id fun ⟨hst, hv, hheap⟩ => ⟨hst, hv, hheap.kept hg⟩
  · rcases hh with rfl | ⟨_, _, e, he, hheap, _⟩
    · exact Or.inr ⟨hst, hv, hheap'⟩
    · -- The record at `v` is on the stack, so it is not the heap record.
      obtain rfl : h = v := hv
      obtain rfl := Option.some.inj (hd.symm.trans he)
      exact absurd (hst.symm.trans hheap) (by decide)

theorem BuiltFrom.kept {b : BlockLayout} (hb : BuiltFrom s t ev a b)
    (hg : GraphCopy hole t u ev') : BuiltFrom s u (ev ++ ev') a b := by
  obtain ⟨src, c, hmem, hc, hst, hfields⟩ := hb
  exact ⟨src, c, List.mem_append_left _ hmem, hc, hst, hfields.imp fun _ _ hx => hx.kept hg⟩

theorem BuiltFrom.earlier {b : BlockLayout} (hb : BuiltFrom t u ev' a b)
    (hg : GraphCopy hole s t ev) : BuiltFrom s u (ev ++ ev') a b := by
  obtain ⟨src, c, hmem, hc, hst, hfields⟩ := hb
  obtain ⟨c₀, w, hc₀, hst₀, rfl, _⟩ := hg.old_literal hc hst
  exact ⟨src, c₀, List.mem_append_right _ hmem, hc₀, hst₀, hfields⟩

theorem GraphCopy.trans (hg : GraphCopy hole s t ev) (hg' : GraphCopy none t u ev') :
    GraphCopy hole s u (ev ++ ev') where
  trace := by rw [hg'.trace, hg.trace, List.append_assoc]
  next_le := Nat.le_trans hg.next_le hg'.next_le
  block a c hc := by
    obtain ⟨w, ht, hw⟩ := hg.block a c hc
    obtain ⟨w', hu, hw'⟩ := hg'.block a _ ht
    exact ⟨w', hu, hw'.trans hw⟩
  byref v c hc := by
    obtain ⟨d, hd, hf⟩ := hg.byref v c hc
    obtain ⟨e, he, hf'⟩ := hg'.byref v d hd
    exact ⟨e, he, hf.trans hd hg' hf'⟩
  newBlock a e hs hu := by
    cases ht : t.blocks a with
    | none =>
      obtain ⟨hle, hlt, hheap, hfree, hbuilt⟩ := hg'.newBlock a e ht hu
      exact ⟨Nat.le_trans hg.next_le hle, hlt, hheap, hfree, fun _ =>
        (hbuilt (by simp)).earlier hg⟩
    | some d =>
      obtain ⟨hle, hlt, hheap, hfree, hbuilt⟩ := hg.newBlock a d hs ht
      obtain ⟨w, hw, hhigh⟩ := hg'.block a d ht
      obtain rfl := Option.some.inj (hw.symm.trans hu)
      refine ⟨hle, Nat.lt_of_lt_of_le hlt hg'.next_le, hheap, fun h => hfree ?_, fun hne =>
        (hbuilt hne).kept hg'⟩
      exact (and_eq_of_high_eq hhigh BLOCK_NEEDS_FREE (by decide)).symm.trans h
  newByref h e hs hu := by
    cases ht : t.byrefs h with
    | none =>
      obtain ⟨hle, hrest⟩ := hg'.newByref h e ht hu
      exact ⟨Nat.le_trans hg.next_le hle, hrest⟩
    | some d =>
      obtain ⟨hle, hlt, hheap, hf, hpos⟩ := hg.newByref h d hs ht
      obtain ⟨e', he', hfwd⟩ := hg'.byref h d ht
      obtain rfl := Option.some.inj (he'.symm.trans hu)
      obtain ⟨hheap', hf', hcount⟩ := hfwd.heap hheap
      exact ⟨hle, Nat.lt_of_lt_of_le hlt hg'.next_le, hheap', hf'.trans hf, by omega⟩
  copies v hv := by
    obtain ⟨c, hc⟩ := Option.ne_none_iff_exists'.1 hv
    obtain ⟨d, hd, _⟩ := hg.byref v c hc
    rw [hg'.copies v (by simp [hd]), hg.copies v hv, heapCopies_append, List.append_assoc]
  keep_fresh h hmem := by
    rcases List.mem_append.1 hmem with hmem | hmem
    · obtain ⟨hle, hlt⟩ := hg.keep_fresh h hmem
      exact ⟨hle, Nat.lt_of_lt_of_le hlt hg'.next_le⟩
    · obtain ⟨hle, hlt⟩ := hg'.keep_fresh h hmem
      exact ⟨Nat.le_trans hg.next_le hle, hlt⟩
  keep_moved h hmem := by
    rcases List.mem_append.1 hmem with hmem | hmem
    · obtain ⟨v, hv⟩ := hg.keep_moved h hmem
      exact ⟨v, List.mem_append_left _ hv⟩
    · obtain ⟨v, hv⟩ := hg'.keep_moved h hmem
      exact ⟨v, List.mem_append_right _ hv⟩
  keep_once h := by
    rw [List.count_append]
    have hfirst := hg.keep_once h
    have hsecond := hg'.keep_once h
    -- A record that is kept in the first part is older than one in the second.
    by_contra hlt
    have hmem := hg.keep_fresh h (List.count_pos_iff.1 (by omega))
    have hmem' := hg'.keep_fresh h (List.count_pos_iff.1 (by omega))
    exact absurd (Nat.lt_of_lt_of_le hmem.2 hmem'.1) (Nat.lt_irrefl h)

/-! ## The steps -/

theorem CaptureGraph.block_next (hs : CaptureGraph s) : s.blocks s.next = none :=
  Option.eq_none_iff_forall_not_mem.2 fun c hc => Nat.lt_irrefl _ (hs.block_lt s.next c hc)

theorem CaptureGraph.byref_next (hs : CaptureGraph s) : s.byrefs s.next = none :=
  Option.eq_none_iff_forall_not_mem.2 fun c hc => Nat.lt_irrefl _ (hs.byref_lt s.next c hc)

theorem heapOf_congr (h : t.byrefs v = s.byrefs v) : heapOf t v = heapOf s v := by
  rw [heapOf, h, heapOf]

/-- The record `d` is `c` with another count. -/
theorem forwarded_count {w : Flags} (hw : high w = high c.byref.flags)
    (hcount : refcount w = 0 ↔ refcount c.byref.flags = 0) :
    Forwarded t v c (c.withFlags w) :=
  ⟨w, c.byref.forwarding, rfl, hw, hcount, Or.inl rfl⟩

theorem forwarded_self (t : Mem) (v : Addr) (c : ByrefCell) : Forwarded t v c c :=
  forwarded_count rfl Iff.rfl

theorem heapCopies_quiet (hmove : ∀ v h, .mallocByref v h ∉ ev) (v : Addr) :
    heapCopies v ev = [] := by
  refine List.eq_nil_iff_forall_not_mem.2 fun h hmem => hmove v h (mem_heapCopies hmem)

/-- A step that makes no record. -/
theorem GraphCopy.quiet (htrace : t.trace = s.trace ++ ev) (hnext : t.next = s.next)
    (hblock : ∀ a c, s.blocks a = some c →
      ∃ w, t.blocks a = some (c.withFlags w) ∧ high w = high c.layout.flags)
    (hnone : ∀ a, s.blocks a = none → t.blocks a = none)
    (hbyref : ∀ v c, s.byrefs v = some c → ∃ w, t.byrefs v = some (c.withFlags w) ∧
      high w = high c.byref.flags ∧ (refcount w = 0 ↔ refcount c.byref.flags = 0))
    (hnone' : ∀ v, s.byrefs v = none → t.byrefs v = none)
    (hmove : ∀ v h, .mallocByref v h ∉ ev) (hkeep : ∀ h, .byrefKeep h ∉ ev) :
    GraphCopy none s t ev where
  trace := htrace
  next_le := hnext.ge
  block := hblock
  byref v c hc := by
    obtain ⟨w, ht, hw, hcount⟩ := hbyref v c hc
    exact ⟨_, ht, forwarded_count hw hcount⟩
  newBlock a d hs ht := by
    rw [hnone a hs] at ht
    cases ht
  newByref h d hs ht := by
    rw [hnone' h hs] at ht
    cases ht
  copies v hv := by
    obtain ⟨c, hc⟩ := Option.ne_none_iff_exists'.1 hv
    obtain ⟨w, ht, _⟩ := hbyref v c hc
    rw [heapCopies_quiet hmove, List.append_nil, heapOf_some ht, heapOf_some hc]
    rfl
  keep_fresh h hmem := absurd hmem (hkeep h)
  keep_moved h hmem := absurd hmem (hkeep h)
  keep_once h := by rw [List.count_eq_zero_of_not_mem (hkeep h)]; exact Nat.zero_le 1

theorem GraphCopy.refl (s : Mem) : GraphCopy none s s [] :=
  .quiet (List.append_nil _).symm rfl (fun _ c hc => ⟨c.layout.flags, hc, rfl⟩) (fun _ h => h)
    (fun _ c hc => ⟨c.byref.flags, hc, rfl, Iff.rfl⟩) (fun _ h => h) (by simp) (by simp)

theorem graphCopy_log (s : Mem) {e : Event} (hmove : ∀ v h, e ≠ .mallocByref v h)
    (hkeep : ∀ h, e ≠ .byrefKeep h) : GraphCopy none s (s.log e) [e] :=
  .quiet rfl rfl (fun _ c hc => ⟨c.layout.flags, hc, rfl⟩) (fun _ h => h)
    (fun _ c hc => ⟨c.byref.flags, hc, rfl, Iff.rfl⟩) (fun _ h => h)
    (fun v h hmem => hmove v h (List.mem_singleton.1 hmem).symm)
    (fun h hmem => hkeep h (List.mem_singleton.1 hmem).symm)

/-- The count of a block changes. -/
theorem graphCopy_setBlock {c : BlockCell} {w : Flags} (hc : s.blocks a = some c)
    (hw : high w = high c.layout.flags) : GraphCopy none s (s.setBlock a (c.withFlags w)) [] := by
  refine .quiet (List.append_nil _).symm rfl (fun b d hd => ?_)
    (fun b hb => Mem.setBlock_none _ hc hb) (fun _ c hc => ⟨c.byref.flags, hc, rfl, Iff.rfl⟩)
    (fun _ h => h) (by simp) (by simp)
  rcases Mem.setBlock_cases (c.withFlags w) hc hd with ⟨_, rfl, hself⟩ | ⟨_, hother⟩
  · exact ⟨w, hself, hw⟩
  · exact ⟨d.layout.flags, hother, rfl⟩

/-- The count of a record changes. -/
theorem graphCopy_setByref {w : Flags} (hc : s.byrefs v = some c)
    (hw : high w = high c.byref.flags) (hcount : refcount w = 0 ↔ refcount c.byref.flags = 0) :
    GraphCopy none s (s.setByref v (c.withFlags w)) [] := by
  refine .quiet (List.append_nil _).symm rfl (fun _ c hc => ⟨c.layout.flags, hc, rfl⟩)
    (fun _ h => h) (fun p d hd => ?_) (fun p hp => Mem.setByref_none _ hc hp) (by simp) (by simp)
  rcases Mem.setByref_cases (c.withFlags w) hc hd with ⟨_, rfl, hself⟩ | ⟨_, hother⟩
  · exact ⟨w, hself, hw, hcount⟩
  · exact ⟨d.byref.flags, hother, rfl, Iff.rfl⟩

/-- The bitwise copy of a literal. -/
theorem graphCopy_halfCopy (hs : CaptureGraph s) (b : Addr) (c : BlockCell) :
    GraphCopy (some s.next) s (s.halfCopy b c) [.mallocBlock b s.next] where
  trace := rfl
  next_le := Nat.le_succ _
  block a d hd := by
    have hne : a ≠ s.next := Nat.ne_of_lt (hs.block_lt a d hd)
    exact ⟨d.layout.flags, (Mem.setBlock_blocks_ne _ _ hne).trans hd, rfl⟩
  byref v d hd := ⟨d, hd, forwarded_self _ v d⟩
  newBlock a d ha hd := by
    by_cases hne : a = s.next
    · subst hne
      obtain rfl := Option.some.inj ((Mem.setBlock_blocks_self _ s.next _).symm.trans hd)
      exact ⟨Nat.le_refl _, Nat.lt_succ_self _, rfl, heapBlockFlags_needsFree _,
        fun h => absurd rfl h⟩
    · have hd' : s.blocks a = some d := (Mem.setBlock_blocks_ne _ _ hne).symm.trans hd
      rw [ha] at hd'
      cases hd'
  newByref h d hs hd := by
    have hd' : s.byrefs h = some d := hd
    rw [hs] at hd'
    cases hd'
  copies v _ := (List.append_nil _).symm
  keep_fresh h hmem := by simp at hmem
  keep_moved h hmem := by simp at hmem
  keep_once h := by simp

/-- A variable gets its heap record. -/
theorem graphCopy_moving (hs : CaptureGraph s) (hc : s.byrefs v = some c)
    (hv : StackVariable s v c) (hheap : d.storage = .heap) (hf : d.byref.forwarding = s.next)
    (hpos : 0 < refcount d.byref.flags) :
    GraphCopy none s (s.moving v c d) [.mallocByref v s.next] := by
  have hlt := hs.byref_lt v c hc
  have hself := s.moving_self v c d
  have hvar := Mem.moving_variable c d (Nat.ne_of_lt hlt)
  have hother : ∀ p, p ≠ v → p ≠ s.next → (s.moving v c d).byrefs p = s.byrefs p :=
    fun p hpv hpn => by simp [Mem.moving, hpv, hpn]
  refine ⟨rfl, Nat.le_succ _, fun a e he => ⟨e.layout.flags, he, rfl⟩, fun p e he => ?_,
    fun a e ha he => ?_, fun p e hp he => ?_, fun p hp => ?_, by simp, by simp, by simp⟩
  · by_cases hpv : p = v
    · subst hpv
      obtain rfl := Option.some.inj (hc.symm.trans he)
      exact ⟨_, hvar, c.byref.flags, s.next, rfl, rfl, Iff.rfl,
        Or.inr ⟨hv.storage, hv.forwarding, d, hself, hheap, hf, hpos⟩⟩
    · have hpn : p ≠ s.next := Nat.ne_of_lt (hs.byref_lt p e he)
      exact ⟨e, (hother p hpv hpn).trans he, forwarded_self _ p e⟩
  · have he' : s.blocks a = some e := he
    rw [ha] at he'
    cases he'
  · by_cases hpn : p = s.next
    · subst hpn
      obtain rfl := Option.some.inj (hself.symm.trans he)
      exact ⟨Nat.le_refl _, Nat.lt_succ_self _, hheap, hf, hpos⟩
    · have hpv : p ≠ v := fun h => by
        rw [h, hc] at hp
        cases hp
      rw [hother p hpv hpn, hp] at he
      cases he
  · by_cases hpv : p = v
    · subst hpv
      have hmoved : heapOf (s.moving p c d) p = [s.next] := by
        rw [heapOf_some hvar, if_neg fun h => Nat.ne_of_lt hlt h.2.symm]
        rfl
      rw [hmoved, heapOf_some hc, if_pos ⟨hv.storage, hv.forwarding⟩]
      simp [heapCopies]
    · have hpn : p ≠ s.next := fun h => hp (h ▸ hs.byref_next)
      rw [heapOf_congr (hother p hpv hpn)]
      simp [heapCopies, Ne.symm hpv]

/-- A keep helper is called for a record that is new. -/
theorem GraphCopy.keep (hg : GraphCopy none s t ev) (hle : s.next ≤ h) (hlt : h < t.next)
    (hmove : .mallocByref v h ∈ ev) (hnot : .byrefKeep h ∉ ev) :
    GraphCopy none s (t.log (.byrefKeep h)) (ev ++ [.byrefKeep h]) where
  trace := by rw [Mem.log_trace, hg.trace, List.append_assoc]
  next_le := hg.next_le
  block := hg.block
  byref := hg.byref
  newBlock a d ha hd := by
    obtain ⟨hle, hlt, hheap, hfree, hbuilt⟩ := hg.newBlock a d ha hd
    refine ⟨hle, hlt, hheap, hfree, fun hne => ?_⟩
    obtain ⟨b, c, hmem, hrest⟩ := hbuilt hne
    exact ⟨b, c, List.mem_append_left _ hmem, hrest⟩
  newByref := hg.newByref
  copies p hp := by
    rw [heapCopies_append, show heapCopies p [.byrefKeep h] = [] from rfl, List.append_nil]
    exact hg.copies p hp
  keep_fresh p hp := by
    rcases List.mem_append.1 hp with hp | hp
    · exact hg.keep_fresh p hp
    · obtain rfl : p = h := by simpa using hp
      exact ⟨hle, hlt⟩
  keep_moved p hp := by
    rcases List.mem_append.1 hp with hp | hp
    · obtain ⟨x, hx⟩ := hg.keep_moved p hp
      exact ⟨x, List.mem_append_left _ hx⟩
    · obtain rfl : p = h := by simpa using hp
      exact ⟨v, List.mem_append_left _ hmove⟩
  keep_once p := by
    rw [List.count_append]
    by_cases hph : p = h
    · subst hph
      rw [List.count_eq_zero_of_not_mem hnot]
      simp
    · have honce := hg.keep_once p
      have hzero : List.count (.byrefKeep p) [Event.byrefKeep h] = 0 :=
        List.count_eq_zero_of_not_mem (by simp [hph])
      omega

/-- A store into the words of a new record. -/
theorem GraphCopy.storeByref (hg : GraphCopy hole s t ev) (hs : s.byrefs h = none)
    (hd : t.byrefs h = some d) {d' : ByrefCell} (hst : d'.storage = d.storage)
    (hf : d'.byref.forwarding = d.byref.forwarding) (hflags : d'.byref.flags = d.byref.flags) :
    GraphCopy hole s (t.setByref h d') ev := by
  have hold : ∀ p, p ≠ h → (t.setByref h d').byrefs p = t.byrefs p :=
    fun p hp => Mem.setByref_byrefs_ne t d' hp
  have hself := Mem.setByref_byrefs_self t h d'
  have hheapOf : ∀ p, heapOf (t.setByref h d') p = heapOf t p := fun p => by
    by_cases hp : p = h
    · rw [hp, heapOf_some hself, heapOf_some hd, hst, hf]
    · exact heapOf_congr (hold p hp)
  have hheapAt : ∀ p, HeapAt t p → HeapAt (t.setByref h d') p := fun p hp => by
    obtain ⟨e, he, hheap, hfe, hpos⟩ := hp
    by_cases hph : p = h
    · subst hph
      obtain rfl := Option.some.inj (hd.symm.trans he)
      exact ⟨d', hself, hst.trans hheap, hf.trans hfe, hflags ▸ hpos⟩
    · exact ⟨e, (hold p hph).trans he, hheap, hfe, hpos⟩
  refine { hg with
    byref := fun p c hc => ?_
    newBlock := fun a e ha he => ?_
    newByref := fun p e hp he => ?_
    copies := fun p hp => (hheapOf p).trans (hg.copies p hp) }
  · have hph : p ≠ h := fun heq => by
      rw [heq, hs] at hc
      cases hc
    obtain ⟨e, he, w, q, heq, hw, hcount, hq⟩ := hg.byref p c hc
    exact ⟨e, (hold p hph).trans he, w, q, heq, hw, hcount,
      hq.imp id fun ⟨hst, hv, hheap⟩ => ⟨hst, hv, hheapAt q hheap⟩⟩
  · obtain ⟨hle, hlt, hheap, hfree, hbuilt⟩ := hg.newBlock a e ha he
    refine ⟨hle, hlt, hheap, hfree, fun hne => ?_⟩
    obtain ⟨b, c, hmem, hc, hst, hfields⟩ := hbuilt hne
    exact ⟨b, c, hmem, hc, hst, hfields.imp fun x y hx =>
      ⟨hx.1, fun hk => (hheapOf x.value).trans (hx.2 hk)⟩⟩
  · by_cases hph : p = h
    · subst hph
      obtain rfl := Option.some.inj (hself.symm.trans he)
      obtain ⟨hle, hlt, hheap, hfd, hpos⟩ := hg.newByref p d hp hd
      exact ⟨hle, hlt, hst.trans hheap, hf.trans hfd, hflags ▸ hpos⟩
    · exact hg.newByref p e hp ((hold p hph).symm.trans he)

/-- A store into a new block, which is finished or not. -/
theorem GraphCopy.storeBlock (hg : GraphCopy (some r) s t ev) (hs : s.blocks r = none)
    {b d : BlockCell} (hb : t.blocks r = some b) (hst : d.storage = b.storage)
    (hflags : d.layout.flags = b.layout.flags)
    (hbuilt : hole = some r ∨ hole = none ∧ BuiltFrom s t ev r d.layout) :
    GraphCopy hole s (t.setBlock r d) ev := by
  refine { hg with block := fun a c hc => ?_, newBlock := fun a e ha he => ?_ }
  · have har : a ≠ r := fun heq => by
      rw [heq, hs] at hc
      cases hc
    rw [Mem.setBlock_blocks_ne t d har]
    exact hg.block a c hc
  · by_cases har : a = r
    · subst har
      obtain rfl := Option.some.inj ((Mem.setBlock_blocks_self t a d).symm.trans he)
      obtain ⟨hle, hlt, hheap, hfree, _⟩ := hg.newBlock a b ha hb
      exact ⟨hle, hlt, hst.trans hheap, hflags ▸ hfree, fun hne =>
        (hbuilt.resolve_left hne).2⟩
    · rw [Mem.setBlock_blocks_ne t d har] at he
      obtain ⟨hle, hlt, hheap, hfree, hfields⟩ := hg.newBlock a e ha he
      exact ⟨hle, hlt, hheap, hfree, fun _ => hfields fun heq => har (Option.some.inj heq).symm⟩

/-! ## The measure -/

/-- The variables that have not moved. -/
def unmovedVariables (s : Mem) : Finset Addr :=
  (Finset.range s.next).filter fun v => unmoved s v = true

/-- The blocks on the stack have addresses below `K`. -/
def StackBelow (K : Nat) (s : Mem) : Prop :=
  ∀ a c, s.blocks a = some c → c.storage = .stack → a < K

/-- A depth that suffices for the literal `b`. -/
def copyNeed (K : Nat) (s : Mem) (b : Addr) : Nat :=
  (unmovedVariables s).card * (K + 1) + b + 1

theorem mem_unmovedVariables (hs : CaptureGraph s) : v ∈ unmovedVariables s ↔
    ∃ c, s.byrefs v = some c ∧ c.storage = .stack ∧ c.byref.forwarding = v := by
  rw [unmovedVariables, Finset.mem_filter, unmoved_iff, Finset.mem_range, and_iff_right_iff_imp]
  exact fun ⟨c, hc, _⟩ => hs.byref_lt v c hc

theorem StackBelow.kept {K : Nat} (hK : StackBelow K s) (hg : GraphCopy hole s t ev) :
    StackBelow K t := by
  intro a d hd hst
  obtain ⟨c, _, hc, hst', _, _⟩ := hg.old_literal hd hst
  exact hK a c hc hst'

theorem GraphCopy.unmoved_subset (hg : GraphCopy hole s t ev) (hs : CaptureGraph s) :
    unmovedVariables t ⊆ unmovedVariables s := by
  intro v hv
  obtain ⟨d, hd, hst, hf⟩ := (mem_unmovedVariables (hg.graph hs)).1 hv
  cases hc : s.byrefs v with
  | none =>
    have hheap := (hg.newByref v d hc hd).2.2.1
    rw [hst] at hheap
    cases hheap
  | some c =>
    obtain ⟨d', hd', w, h, rfl, _, _, hh⟩ := hg.byref v c hc
    obtain rfl := Option.some.inj (hd'.symm.trans hd)
    obtain rfl : h = v := hf
    refine (mem_unmovedVariables hs).2 ⟨c, hc, hst, ?_⟩
    rcases hh with hh | ⟨_, hh, _⟩
    · exact hh.symm
    · exact hh

theorem GraphCopy.card_unmoved_le (hg : GraphCopy hole s t ev) (hs : CaptureGraph s) :
    (unmovedVariables t).card ≤ (unmovedVariables s).card :=
  Finset.card_le_card (hg.unmoved_subset hs)

/-- A variable that gets its heap record is no longer unmoved. -/
theorem GraphCopy.card_unmoved_lt (hg : GraphCopy hole s t ev) (hs : CaptureGraph s)
    (hv : v ∈ unmovedVariables s) (hh : heapOf t v = [h]) :
    (unmovedVariables t).card < (unmovedVariables s).card := by
  refine Finset.card_lt_card ⟨hg.unmoved_subset hs, fun hsub => ?_⟩
  obtain ⟨d, hd, hst, hf⟩ := (mem_unmovedVariables (hg.graph hs)).1 (hsub hv)
  rw [heapOf_some hd, if_pos ⟨hst, hf⟩] at hh
  cases hh

/-! ## A variable -/

/-- `_Block_copy`, to the depth `n`, returns when the depth suffices. -/
def CopiesGraph (env : Env) (K n : Nat) : Prop :=
  ∀ s b, CaptureGraph s → StackBelow K s → BlockOrNull s b →
    (∀ c, s.blocks b = some c → c.storage = .stack → copyNeed K s b ≤ n) →
    ∃ r t ev, blockCopyN env n b s = .ok (r, t) ∧ GraphCopy none s t ev

theorem heapOf_singleton (hh : heapOf s v = [h]) :
    ∃ c, s.byrefs v = some c ∧ c.byref.forwarding = h := by
  unfold heapOf at hh
  split at hh
  · cases hh
  · next c hc =>
    split at hh
    · cases hh
    · exact ⟨c, hc, List.singleton_inj.1 hh⟩

/-- The end of `_Block_byref_copy`. -/
theorem load_forwarding (hh : heapOf s v = [h]) : (do
    let src ← loadByref v
    return src.forwarding : M Addr) s = .ok (h, s) := by
  obtain ⟨c, hc, rfl⟩ := heapOf_singleton hh
  rw [bind_ok (loadByref_ok hc)]
  rfl

/-- A variable that has a heap record. -/
theorem blockByrefCopyBody_shared {byrefKeep : Addr → Addr → M Unit} (hc : s.byrefs v = some c)
    (hheap : HeapAt s c.byref.forwarding) :
    ∃ h t ev, blockByrefCopyBody env byrefKeep v s = .ok (h, t) ∧ GraphCopy none s t ev ∧
      heapOf t v = [h] := by
  obtain ⟨d, hd, hheap, hself, hpos⟩ := hheap
  have hh : heapOf s v = [c.byref.forwarding] := by
    refine (heapOf_some hc).trans (if_neg fun ⟨hst, hf⟩ => ?_)
    rw [hf, hc] at hd
    obtain rfl := Option.some.inj hd
    exact absurd (hst.symm.trans hheap) (by decide)
  have hzero : ¬(d.byref.flags &&& BLOCK_REFCOUNT_MASK = 0) := fun h => by
    rw [and_refcount_mask_eq_zero] at h
    omega
  unfold blockByrefCopyBody
  rw [bind_ok (loadByref_ok hc), bind_ok (loadByref_ok hd), if_neg hzero]
  by_cases hfree : d.byref.flags &&& BLOCK_BYREF_NEEDS_FREE = BLOCK_BYREF_NEEDS_FREE
  · obtain ⟨r, w, hrun, hcount, hm⟩ := incr_run_views d.byref.flags
    have hlatched : 0 < latched := by decide
    have hg := graphCopy_setByref hd hm.high (w := w) (by omega)
    rw [if_pos hfree, bind_ok (loopByrefFlags_ok hd _ hrun)]
    exact ⟨_, _, _, load_forwarding (hg.heapOf_kept hh).1, hg, (hg.heapOf_kept hh).1⟩
  · rw [if_neg hfree]
    exact ⟨_, _, _, load_forwarding hh, GraphCopy.refl s, hh⟩

/-- The record with the word `i` set. -/
def ByrefCell.setWord (c : ByrefCell) (i : Nat) (w : Word) : ByrefCell :=
  { c with byref := { c.byref with storage := c.byref.storage.set i w } }

/-- The keep helper of a variable stores a word into its heap record. -/
theorem byrefKeepHelper_graph {K m : Nat} {k : BlockByref2} (hrec : CopiesGraph env K m)
    (hs : CaptureGraph s) (hK : StackBelow K s) (hc : s.byrefs v = some c)
    (hd : s.byrefs h = some d) (hk : c.byref.byref2 = some k)
    (hfits : k.byrefKeep.Fits s c.byref.storage)
    (hneed : ((unmovedVariables s).card + 1) * (K + 1) ≤ m) :
    ∃ t ev e i w, byrefKeepHelper (blockObjectAssignN env m) (blockCopyN env m) h v s =
        .ok ((), t.setByref h (e.setWord i w)) ∧
      GraphCopy none s t ev ∧ t.byrefs h = some e := by
  have hstore : ∀ t ev, GraphCopy none s t ev → ∀ i w, ∃ e, t.byrefs h = some e ∧
      updateByref h (fun b => { b with storage := b.storage.set i w }) t =
        .ok ((), t.setByref h (e.setWord i w)) := by
    intro t ev hg i w
    obtain ⟨e, he, _⟩ := hg.byref h d hd
    exact ⟨e, he, updateByref_ok he _⟩
  rw [Nat.add_one_mul] at hneed
  unfold byrefKeepHelper
  rw [bind_ok (loadByref_ok hc)]
  simp only [hk]
  cases hkeep : k.byrefKeep with
  | assign i flags =>
    rw [hkeep] at hfits
    obtain ⟨hflags, hlt⟩ : flags ∈ byrefHelperFlags ∧ i < c.byref.storage.length := hfits
    obtain ⟨n, rfl⟩ : ∃ n, m = n + 1 := Nat.exists_eq_succ_of_ne_zero (by omega)
    simp only
    rw [bind_ok (wordAt_ok (List.getElem?_eq_getElem hlt) s), blockObjectAssignN_succ,
      blockObjectAssignBody_caller _ _ _ _ hflags, bind_ok (pure_apply _ _)]
    obtain ⟨e, he, hrun⟩ := hstore s [] (GraphCopy.refl s) i c.byref.storage[i]
    exact ⟨s, [], e, i, _, hrun, GraphCopy.refl s, he⟩
  | copy i =>
    rw [hkeep] at hfits
    obtain ⟨b, hb, hblock⟩ := hfits
    simp only
    rw [bind_ok (wordAt_ok hb s)]
    obtain ⟨r, t, ev, hcopy, hg⟩ := hrec s b hs hK hblock fun c hc hst => by
      have hlt := hK b c hc hst
      exact Nat.le_trans (Nat.add_le_add_left (Nat.succ_le_succ (Nat.le_of_lt hlt)) _) hneed
    obtain ⟨e, he, hrun⟩ := hstore t ev hg i r
    rw [bind_ok hcopy]
    exact ⟨t, ev, e, i, r, hrun, hg, he⟩

/-- A variable with helpers moves. -/
theorem callByrefKeep_graph {K m : Nat} (hrec : CopiesGraph env K m) (hs : CaptureGraph s)
    (hK : StackBelow K s) (hc : s.byrefs v = some c) (hv : StackVariable s v c)
    (hhas : c.byref.flags &&& BLOCK_BYREF_HAS_COPY_DISPOSE ≠ 0) (hheap : d.storage = .heap)
    (hf : d.byref.forwarding = s.next) (hpos : 0 < refcount d.byref.flags)
    (hneed : (unmovedVariables s).card * (K + 1) ≤ m) :
    ∃ t ev, callByrefKeep (byrefKeepHelper (blockObjectAssignN env m) (blockCopyN env m)) s.next v
        (s.moving v c d) = .ok (s.next, t) ∧ GraphCopy none s t ev ∧ heapOf t v = [s.next] := by
  have hlt := hs.byref_lt v c hc
  have hne : v ≠ s.next := Nat.ne_of_lt hlt
  have hmoved := (graphCopy_moving hs hc hv hheap hf hpos).keep (v := v) (Nat.le_refl _)
    (Nat.lt_succ_self _) (by simp) (by simp)
  have hvar : ((s.moving v c d).log (.byrefKeep s.next)).byrefs v = some (c.forward s.next) :=
    Mem.moving_variable c d hne
  have hself : ((s.moving v c d).log (.byrefKeep s.next)).byrefs s.next = some d :=
    s.moving_self v c d
  have hh : heapOf ((s.moving v c d).log (.byrefKeep s.next)) v = [s.next] :=
    (heapOf_some hvar).trans (if_neg fun h => hne h.2.symm)
  obtain ⟨k, hk, hfits⟩ := hv.keep hhas
  have hcard := hmoved.card_unmoved_lt hs
    ((mem_unmovedVariables hs).2 ⟨c, hc, hv.storage, hv.forwarding⟩) hh
  obtain ⟨t, ev, e, i, w, hrun, hg, he⟩ := byrefKeepHelper_graph hrec (hmoved.graph hs)
    (hK.kept hmoved) hvar hself hk (hfits.kept hmoved)
    (Nat.le_trans (Nat.mul_le_mul_right (K + 1) hcard) hneed)
  have hend : heapOf (t.setByref s.next (e.setWord i w)) v = [s.next] :=
    (heapOf_congr (Mem.setByref_byrefs_ne t _ hne)).trans (hg.heapOf_kept hh).1
  refine ⟨t.setByref s.next (e.setWord i w), _, ?_,
    (hmoved.trans hg).storeByref hs.byref_next he rfl rfl rfl, hend⟩
  unfold callByrefKeep
  rw [bind_ok (log_apply _ _), bind_ok hrun]
  exact load_forwarding hend

/-- `_Block_byref_copy`. -/
theorem blockByrefCopyN_graph {K m : Nat} (hmalloc : ∀ k, env.mallocOk k = true)
    (hrec : CopiesGraph env K m) (hs : CaptureGraph s) (hK : StackBelow K s)
    (hv : s.byrefs v ≠ none) (hneed : (unmovedVariables s).card * (K + 1) ≤ m) :
    ∃ h t ev, blockByrefCopyN env m v s = .ok (h, t) ∧ GraphCopy none s t ev ∧
      heapOf t v = [h] := by
  obtain ⟨c, hc⟩ := Option.ne_none_iff_exists'.1 hv
  rcases hs.byref v c hc with hstack | hheap
  · have hlt := hs.byref_lt v c hc
    have hcount : refcount (heapByrefFlags c.byref.flags) = 2 :=
      heapByrefFlags_refcount hstack.count
    have hpos : 0 < refcount (heapByrefFlags c.byref.flags) := by omega
    by_cases hhas : c.byref.flags &&& BLOCK_BYREF_HAS_COPY_DISPOSE = 0
    · have hg := graphCopy_moving hs hc hstack
        (d := startedRecord c.byref s.next c.byref.storage) rfl rfl hpos
      have hh : heapOf (s.moving v c (startedRecord c.byref s.next c.byref.storage)) v = [s.next] :=
        (heapOf_some (Mem.moving_variable c _ (Nat.ne_of_lt hlt))).trans
          (if_neg fun h => Nat.ne_of_lt hlt h.2.symm)
      refine ⟨_, _, _, ?_, hg, hh⟩
      unfold blockByrefCopyN
      rw [blockByrefCopyBody_moving hlt hc hstack.forwarding hstack.count (hmalloc _),
        if_neg (not_not.2 hhas), bind_ok (updateByref_moving s v c _ _)]
      exact load_forwarding hh
    · have hmove : ∀ words, ∃ t ev,
          callByrefKeep (byrefKeepHelper (blockObjectAssignN env m) (blockCopyN env m)) s.next v
            (s.moving v c (startedRecord c.byref s.next words)) = .ok (s.next, t) ∧
          GraphCopy none s t ev ∧ heapOf t v = [s.next] :=
        fun words => callByrefKeep_graph hrec hs hK hc hstack hhas rfl rfl hpos hneed
      unfold blockByrefCopyN
      by_cases hext : c.byref.flags &&& BLOCK_BYREF_LAYOUT_EXTENDED = 0
      · rw [blockByrefCopyBody_plain hlt hc hstack.forwarding hstack.count hhas (hmalloc _) hext]
        exact ⟨s.next, hmove _⟩
      · obtain ⟨k, hk, hfits⟩ := hstack.keep hhas
        have hword := List.getElem?_eq_getElem hfits.length_pos
        rw [blockByrefCopyBody_odd hlt hc hstack.forwarding hstack.count hhas (hmalloc _) hword
          hext]
        exact ⟨s.next, hmove _⟩
  · exact blockByrefCopyBody_shared hc hheap

/-! ## A block -/

/-- A field that the helper of a literal at `a` copies. -/
theorem assign_graph {K m : Nat} {b : BlockLayout} {x : Capture} {flags : Flags}
    (hmalloc : ∀ k, env.mallocOk k = true) (hrec : CopiesGraph env K m) (hs : CaptureGraph s)
    (hK : StackBelow K s) (hb : StackBlock s a b) (hx : x ∈ b.captured)
    (hflags : x.kind.flags = some flags)
    (hneed : (unmovedVariables s).card * (K + 1) + a ≤ m) :
    ∃ v t ev, blockObjectAssignN env (m + 1) x.value flags s = .ok (some v, t) ∧
      GraphCopy none s t ev ∧ FieldCopy t x { x with value := v } := by
  have hbyref : x.kind.isByref → ∃ h t ev, blockByrefCopyN env m x.value s = .ok (h, t) ∧
      GraphCopy none s t ev ∧ heapOf t x.value = [h] := fun hk =>
    blockByrefCopyN_graph hmalloc hrec hs hK (hb.byrefs x hx hk)
      (Nat.le_trans (Nat.le_add_right _ a) hneed)
  rw [blockObjectAssignN_succ, blockObjectAssignBody_kind _ _ _ _ hflags]
  cases hk : x.kind with
  | plain =>
    rw [hk] at hflags
    cases hflags
  | object =>
    exact ⟨x.value, _, _, rfl, graphCopy_log s (by simp) (by simp),
      hk.symm, fun h => by simp [FieldKind.isByref, hk] at h⟩
  | block =>
    obtain ⟨r, t, ev, hrun, hg⟩ := hrec s x.value hs hK (hb.blocks x hx hk) fun c hc hst =>
      Nat.le_trans (Nat.add_le_add_left (hb.older x hx hk c hc hst) _) hneed
    exact ⟨r, t, ev, bind_ok hrun, hg, hk.symm, fun h => by simp [FieldKind.isByref, hk] at h⟩
  | byref =>
    obtain ⟨h, t, ev, hrun, hg, hh⟩ := hbyref (Or.inl hk)
    exact ⟨h, t, ev, bind_ok hrun, hg, hk.symm, fun _ => hh⟩
  | weakByref =>
    obtain ⟨h, t, ev, hrun, hg, hh⟩ := hbyref (Or.inr hk)
    exact ⟨h, t, ev, bind_ok hrun, hg, hk.symm, fun _ => hh⟩

/-- The new block `r` is being filled from the literal `b`: the variables `xs`
have become `ys`, and `rest` are still bitwise copies. -/
structure Building (s : Mem) (b r : Addr) (t : Mem) (events : List Event)
    (xs ys rest : List Capture) : Prop where
  graph : GraphCopy (some r) s t events
  made : .mallocBlock b r ∈ events
  cell : ∃ d, t.blocks r = some d ∧ d.layout.captured = ys ++ rest
  fields : List.Forall₂ (FieldCopy t) xs ys

variable {b : Addr} {xs ys rest : List Capture} {x : Capture}

theorem forall₂_concat {R : Capture → Capture → Prop} (h : List.Forall₂ R xs ys) {y : Capture}
    (hxy : R x y) : List.Forall₂ R (xs ++ [x]) (ys ++ [y]) :=
  List.rel_append h (.cons hxy .nil)

/-- A field that the helper leaves alone. -/
theorem Building.skip (hf : Building s b r t ev xs ys (x :: rest)) (hx : x.kind = .plain) :
    Building s b r t ev (xs ++ [x]) (ys ++ [x]) rest where
  graph := hf.graph
  made := hf.made
  cell := by
    obtain ⟨d, hd, hcap⟩ := hf.cell
    exact ⟨d, hd, hcap.trans (List.append_assoc ys [x] rest).symm⟩
  fields := forall₂_concat hf.fields ⟨rfl, fun h => by simp [FieldKind.isByref, hx] at h⟩

/-- A field is stored. -/
theorem Building.store {v : Addr} (hs : s.blocks r = none)
    (hf : Building s b r t ev xs ys (x :: rest)) (hg : GraphCopy none t u ev')
    (hx : FieldCopy u x { x with value := v }) :
    ∃ u', storeCapture r ys.length v u = .ok ((), u') ∧
      Building s b r u' (ev ++ ev') (xs ++ [x]) (ys ++ [{ x with value := v }]) rest := by
  obtain ⟨d, hd, hcap⟩ := hf.cell
  obtain ⟨w, hw, _⟩ := hg.block r d hd
  have hfields : List.Forall₂ (FieldCopy u) (xs ++ [x]) (ys ++ [{ x with value := v }]) :=
    forall₂_concat (hf.fields.imp fun _ _ hy => hy.kept hg) hx
  unfold storeCapture
  rw [updateBlock_ok hw]
  refine ⟨_, rfl, (hf.graph.trans hg).storeBlock hs hw rfl rfl (Or.inl rfl),
    List.mem_append_left _ hf.made, ⟨_, Mem.setBlock_blocks_self u r _, ?_⟩, hfields⟩
  show d.layout.captured.modify ys.length _ = _
  rw [hcap, modify_length_append, List.append_assoc]
  rfl

/-- The helper of a literal copies the captured variables one after the other. -/
theorem copyFields_graph {assign : Addr → Flags → M (Option Addr)} (hs : s.blocks r = none)
    (rest : List Capture) :
    (∀ x ∈ rest, ∀ t ev flags, GraphCopy (some r) s t ev → x.kind.flags = some flags →
      ∃ v u ev', assign x.value flags t = .ok (some v, u) ∧ GraphCopy none t u ev' ∧
        FieldCopy u x { x with value := v }) →
    ∀ t ev xs ys, Building s b r t ev xs ys rest →
      ∃ u ev' zs, copyFields assign r ys.length rest t = .ok ((), u) ∧
        Building s b r u ev' (xs ++ rest) zs [] := by
  induction rest with
  | nil =>
    intro _ t ev xs ys hf
    rw [List.append_nil]
    exact ⟨t, ev, ys, rfl, hf⟩
  | cons x rest ih =>
    intro hassign t ev xs ys hf
    have hrest := ih fun y hy => hassign y (List.mem_cons_of_mem x hy)
    have hlen : ∀ y : Capture, ys.length + 1 = (ys ++ [y]).length := fun y => by simp
    rw [copyFields, List.append_cons]
    cases hk : x.kind.flags with
    | none =>
      have hplain : x.kind = .plain := FieldKind.eq_plain hk
      simp only
      rw [hlen x]
      exact hrest t ev _ _ (hf.skip hplain)
    | some flags =>
      obtain ⟨v, u, ev', hrun, hg, hx⟩ := hassign x List.mem_cons_self t ev flags hf.graph hk
      obtain ⟨u', hstore, hf'⟩ := hf.store hs hg hx
      simp only
      rw [bind_ok hrun]
      simp only
      rw [bind_ok hstore, hlen { x with value := v }]
      exact hrest u' _ _ _ hf'

/-- The new block before its helper runs. -/
theorem building_start (hs : CaptureGraph s) (b : Addr) (c : BlockCell) :
    Building s b s.next (s.halfCopy b c) [.mallocBlock b s.next] [] [] c.layout.captured where
  graph := graphCopy_halfCopy hs b c
  made := List.mem_singleton_self _
  cell := ⟨halfCopied c, Mem.setBlock_blocks_self _ s.next _, rfl⟩
  fields := .nil

theorem callCopyHelper_graph {K m : Nat} {c : BlockCell} (hmalloc : ∀ k, env.mallocOk k = true)
    (hrec : CopiesGraph env K m) (hs : CaptureGraph s) (hK : StackBelow K s)
    (hc : s.blocks b = some c) (hb : StackBlock s b c.layout)
    (hneed : (unmovedVariables s).card * (K + 1) + b ≤ m) :
    ∃ t ev zs, blockCallCopyHelper (copyHelper (blockObjectAssignN env (m + 1))) s.next b
        (s.halfCopy b c) = .ok ((), t) ∧ Building s b s.next t ev c.layout.captured zs [] := by
  have hload : (s.halfCopy b c).blocks b = some c :=
    (Mem.setBlock_blocks_ne _ _ (Nat.ne_of_lt (hs.block_lt b c hc))).trans hc
  have hstart := building_start hs b c
  unfold blockCallCopyHelper
  rw [bind_ok (loadBlock_ok hload), blockDescriptor2]
  by_cases hhas : c.layout.flags &&& BLOCK_HAS_COPY_DISPOSE = 0
  · rw [if_pos hhas]
    obtain ⟨d, hd, hcap⟩ := hstart.cell
    refine ⟨_, _, c.layout.captured, rfl, hstart.graph, hstart.made, ⟨d, hd, by simpa using hcap⟩,
      List.forall₂_same.2 fun x hx => ⟨rfl, fun h => ?_⟩⟩
    simp [FieldKind.isByref, hb.helpers hhas x hx] at h
  · have hlen : 2 < c.layout.descriptor.length :=
      Nat.lt_of_lt_of_le (by decide) (hb.descriptor hhas)
    have hword : (c.layout.descriptor.drop 2)[0]? = some c.layout.descriptor[2] := by
      simp [hlen]
    have hload' : ((s.halfCopy b c).log
        (.copyHelper c.layout.descriptor[2] s.next)).blocks b = some c := hload
    rw [if_neg hhas]
    simp only
    rw [bind_ok (wordAt_ok hword _), bind_ok (log_apply _ _), copyHelper,
      bind_ok (loadBlock_ok hload')]
    have hlog := graphCopy_log (s.halfCopy b c) (e := .copyHelper c.layout.descriptor[2] s.next)
      (by simp) (by simp)
    refine copyFields_graph hs.block_next c.layout.captured (fun x hx t ev flags hg hflags => ?_)
      _ _ [] [] ⟨hstart.graph.trans hlog, List.mem_append_left _ hstart.made, hstart.cell, .nil⟩
    obtain ⟨w, _, hw⟩ := hg.block b c hc
    refine assign_graph hmalloc hrec (hg.graph hs) (hK.kept hg) (hb.kept hg hw) hx hflags ?_
    exact Nat.le_trans (Nat.add_le_add_right
      (Nat.mul_le_mul_right (K + 1) (hg.card_unmoved_le hs)) b) hneed

/-- A finished block. -/
theorem Building.finish {zs : List Capture} {c : BlockCell} (hs : s.blocks r = none)
    (hc : s.blocks b = some c) (hst : c.storage = .stack)
    (hf : Building s b r t ev c.layout.captured zs []) :
    ∃ u, updateBlock r (fun d => { d with isa := .mallocBlock }) t = .ok ((), u) ∧
      GraphCopy none s u ev := by
  obtain ⟨d, hd, hcap⟩ := hf.cell
  rw [List.append_nil] at hcap
  refine ⟨_, updateBlock_ok hd _, hf.graph.storeBlock hs hd rfl rfl (Or.inr ⟨rfl, ?_⟩)⟩
  exact ⟨b, c, hf.made, hc, hst, hcap.symm ▸ hf.fields⟩

/-- `_Block_copy` of a literal, up to its copy helper. -/
theorem blockCopyBody_literal {copyHelper : Addr → Addr → M Unit} {c : BlockCell}
    (hnull : b ≠ NULL) (hc : s.blocks b = some c) (hb : StackBlock s b c.layout)
    (hmalloc : env.mallocOk s.mallocs = true) :
    blockCopyBody env copyHelper b s =
      (do
        blockCallCopyHelper copyHelper s.next b
        updateBlock s.next fun d => { d with isa := .mallocBlock }
        return s.next : M Addr) (s.halfCopy b c) := by
  unfold blockCopyBody
  rw [if_neg hnull, bind_ok (loadBlock_ok hc), if_neg (not_not.2 hb.notFree),
    if_neg (not_not.2 hb.notGlobal), bind_ok (malloc_ok hmalloc)]
  rfl

/-- `_Block_copy` of a block that is not on the stack. -/
theorem blockCopyBody_shared {copyHelper : Addr → Addr → M Unit} (hs : CaptureGraph s)
    (hb : BlockOrNull s b) (hst : ∀ c, s.blocks b = some c → c.storage ≠ .stack) :
    ∃ r t ev, blockCopyBody env copyHelper b s = .ok (r, t) ∧ GraphCopy none s t ev := by
  unfold blockCopyBody
  by_cases hnull : b = NULL
  · rw [if_pos hnull]
    exact ⟨NULL, s, [], rfl, GraphCopy.refl s⟩
  · obtain ⟨c, hc⟩ := Option.ne_none_iff_exists'.1 (hb.resolve_left hnull)
    rw [if_neg hnull, bind_ok (loadBlock_ok hc)]
    by_cases hfree : c.layout.flags &&& BLOCK_NEEDS_FREE = 0
    · have hglobal := (hs.shared b c hc (hst c hc)).resolve_left (not_not.2 hfree)
      rw [if_neg (not_not.2 hfree), if_pos hglobal]
      exact ⟨b, s, [], rfl, GraphCopy.refl s⟩
    · obtain ⟨_, w, hrun, _, hm⟩ := incr_run_views c.layout.flags
      rw [if_pos hfree, bind_ok (loopBlockFlags_ok hc _ hrun)]
      exact ⟨b, _, [], rfl, graphCopy_setBlock hc hm.high⟩

/-- `_Block_copy` returns when the depth suffices.  The induction is on the
depth. -/
theorem copiesGraph (hmalloc : ∀ k, env.mallocOk k = true) (K n : Nat) :
    CopiesGraph env K n := by
  induction n with
  | zero =>
    intro s b hs _ hb hneed
    exact blockCopyBody_shared hs hb fun c hc hst =>
      absurd (hneed c hc hst) (Nat.not_succ_le_zero _)
  | succ m ih =>
    intro s b hs hK hb hneed
    by_cases hst : b ≠ NULL ∧ ∃ c, s.blocks b = some c ∧ c.storage = .stack
    · obtain ⟨hnull, c, hc, hst⟩ := hst
      have hlit := hs.literal b c hc hst
      obtain ⟨t, ev, zs, hrun, hf⟩ := callCopyHelper_graph hmalloc ih hs hK hc hlit
        (Nat.le_of_succ_le_succ (hneed c hc hst))
      obtain ⟨u, hupdate, hg⟩ := hf.finish hs.block_next hc hst
      unfold blockCopyN
      rw [blockCopyBody_literal hnull hc hlit (hmalloc _), bind_ok hrun, bind_ok hupdate]
      exact ⟨s.next, u, ev, rfl, hg⟩
    · by_cases hnull : b = NULL
      · subst hnull
        exact ⟨NULL, s, [], rfl, GraphCopy.refl s⟩
      · exact blockCopyBody_shared hs hb fun c hc h => hst ⟨hnull, c, hc, h⟩

/-- The bound of the model suffices. -/
theorem copyNeed_le_copyFuel (hb : b < s.next) : copyNeed s.next s b ≤ copyFuel s := by
  have hcard : (unmovedVariables s).card ≤ s.next := by
    have hle := Finset.card_filter_le (Finset.range s.next) fun v => unmoved s v = true
    rwa [Finset.card_range] at hle
  have hsquare : ∀ k m n : Nat, k ≤ n → m < n → k * (n + 1) + m + 1 ≤ (n + 2) * (n + 2) := by
    intro k m n hk hm
    have hmul := Nat.mul_le_mul_right (n + 1) hk
    have hexp : (n + 2) * (n + 2) = n * (n + 1) + (3 * n + 4) := by
      simp only [Nat.mul_add, Nat.add_mul]
      omega
    omega
  exact hsquare _ _ _ hcard hb

/-! ## The result -/

/-- The heap records of the variable `v`: the one that it had at `s`, and those
that were allocated for it since. -/
def heapRecords (s t : Mem) (v : Addr) : List Addr :=
  heapOf s v ++ heapCopies v (newEvents s t)

/-- The calls of the keep helper of the variable `v`. -/
def keepCalls (v : Addr) (events : List Event) : Nat :=
  ((heapCopies v events).map fun h => events.count (.byrefKeep h)).sum

/-- The field `y` of a new block is the copy of the field `x` of a literal.  A
pointer to a `__block` variable points to its one heap record. -/
def CopiedField (s t : Mem) (x y : Capture) : Prop :=
  y.kind = x.kind ∧ (x.kind.isByref → heapRecords s t x.value = [y.value] ∧
    ∃ d, t.byrefs y.value = some d ∧ d.storage = .heap)

theorem GraphCopy.length_heapCopies (hg : GraphCopy none s t ev) (hv : s.byrefs v ≠ none) :
    (heapOf s v ++ heapCopies v ev).length ≤ 1 := by
  rw [← hg.copies v hv]
  exact length_heapOf_le t v

theorem GraphCopy.keepCalls_le (hg : GraphCopy none s t ev) (hv : s.byrefs v ≠ none) :
    keepCalls v ev ≤ 1 := by
  have hlen := hg.length_heapCopies hv
  rw [List.length_append] at hlen
  unfold keepCalls
  rcases hcopies : heapCopies v ev with _ | ⟨h, _ | ⟨h', rest⟩⟩
  · simp
  · simpa using hg.keep_once h
  · rw [hcopies, List.length_cons, List.length_cons] at hlen
    omega

/-- The heap record of a variable is on the heap. -/
theorem CaptureGraph.heapOf_heap (hs : CaptureGraph s) (hh : heapOf s v = [h]) : HeapAt s h := by
  obtain ⟨c, hc, rfl⟩ := heapOf_singleton hh
  refine (hs.byref v c hc).resolve_left fun hv => ?_
  rw [heapOf_some hc, if_pos ⟨hv.storage, hv.forwarding⟩] at hh
  cases hh

theorem FieldCopy.copied {x y : Capture} (hx : FieldCopy t x y) (hg : GraphCopy none s t ev)
    (ht : CaptureGraph t) (hv : x.kind.isByref → s.byrefs x.value ≠ none) :
    CopiedField s t x y := by
  refine ⟨hx.1, fun hk => ⟨?_, ?_⟩⟩
  · rw [heapRecords, newEvents_append hg.trace, ← hg.copies _ (hv hk)]
    exact hx.2 hk
  · obtain ⟨d, hd, hheap, _⟩ := ht.heapOf_heap (hx.2 hk)
    exact ⟨d, hd, hheap⟩

/-- `_Block_copy` of any block returns.  A variable moves at most once, and
only if it has not moved before, and its keep helper is called at most once.
Each new block is the copy of a literal, and its pointers to `__block` variables
point to the one heap record of the variable. -/
theorem blockCopy_cyclic (hmalloc : ∀ k, env.mallocOk k = true) (hs : CaptureGraph s)
    (hb : BlockOrNull s b) :
    ∃ r t, blockCopy env b s = .ok (r, t) ∧
      (∀ v, s.byrefs v ≠ none → (heapRecords s t v).length ≤ 1 ∧
        keepCalls v (newEvents s t) ≤ 1) ∧
      (∀ h, .byrefKeep h ∈ newEvents s t → ∃ v, h ∈ heapCopies v (newEvents s t)) ∧
      ∀ a d, s.blocks a = none → t.blocks a = some d →
        ∃ src c, .mallocBlock src a ∈ newEvents s t ∧ s.blocks src = some c ∧
          c.storage = .stack ∧
          List.Forall₂ (CopiedField s t) c.layout.captured d.layout.captured := by
  obtain ⟨r, t, ev, hrun, hg⟩ := copiesGraph hmalloc s.next (copyFuel s) s b hs
    (fun a c hc _ => hs.block_lt a c hc) hb
    fun c hc _ => copyNeed_le_copyFuel (hs.block_lt b c hc)
  refine ⟨r, t, hrun, fun v hv => ?_, fun h hmem => ?_, fun a d ha hd => ?_⟩
  · rw [heapRecords, newEvents_append hg.trace]
    exact ⟨hg.length_heapCopies hv, hg.keepCalls_le hv⟩
  · rw [newEvents_append hg.trace] at hmem ⊢
    obtain ⟨v, hv⟩ := hg.keep_moved h hmem
    refine ⟨v, List.count_pos_iff.1 ?_⟩
    rw [count_heapCopies]
    exact List.count_pos_iff.2 hv
  · obtain ⟨_, _, _, _, hbuilt⟩ := hg.newBlock a d ha hd
    obtain ⟨src, c, hmem, hc, hst, hfields⟩ := hbuilt (by simp)
    rw [newEvents_append hg.trace]
    refine ⟨src, c, hmem, hc, hst, ?_⟩
    have hlit := hs.literal src c hc hst
    have ht := hg.graph hs
    refine List.forall₂_iff_get.2 ⟨hfields.length_eq, fun i hi hi' => ?_⟩
    exact (hfields.get hi hi').copied hg ht (hlit.byrefs _ (List.get_mem _ _))

end

/-- A literal that captures the variable at 1. -/
def recursiveLiteral : BlockCell :=
  ⟨.stack, {
    isa := .stackBlock
    flags := BLOCK_HAS_COPY_DISPOSE
    reserved := 0
    invoke := 100
    descriptor := [0, 40, 201, 202]
    captured := [⟨.byref, 1⟩] }⟩

/-- The variable at 1, which holds the block at 2.  Its keep helper copies the
block. -/
def recursiveVariable : ByrefCell :=
  ⟨.stack, {
    isa := .nil
    forwarding := 1
    flags := BLOCK_BYREF_HAS_COPY_DISPOSE
    size := 48
    byref2 := some ⟨.copy 0, .release 0⟩
    storage := [2] }⟩

/-- A block that calls itself through a `__block` variable. -/
def recursiveBlock : Mem where
  blocks a := if a = 2 then some recursiveLiteral else none
  byrefs v := if v = 1 then some recursiveVariable else none
  next := 3
  mallocs := 0
  trace := []

theorem recursiveBlock_graph : CaptureGraph recursiveBlock := by
  have hblock : ∀ a c, recursiveBlock.blocks a = some c → a = 2 ∧ recursiveLiteral = c :=
    fun a c h => by simpa [recursiveBlock] using h
  have hbyref : ∀ v c, recursiveBlock.byrefs v = some c → v = 1 ∧ recursiveVariable = c :=
    fun v c h => by simpa [recursiveBlock] using h
  have hcaptured : ∀ x ∈ recursiveLiteral.layout.captured, x = ⟨.byref, 1⟩ := by
    simp [recursiveLiteral]
  refine ⟨fun a c h => ?_, fun v c h => ?_, fun a c h _ => ?_, fun a c h hst => ?_,
    fun v c h => Or.inl ?_⟩
  · obtain ⟨rfl, _⟩ := hblock a c h
    decide
  · obtain ⟨rfl, _⟩ := hbyref v c h
    decide
  · obtain ⟨rfl, rfl⟩ := hblock a c h
    refine ⟨by decide, by decide, fun h => absurd h (by decide), fun _ => by decide,
      fun x hx hk => ?_, fun x hx hk => ?_, fun x hx _ => ?_⟩
    · rw [hcaptured x hx] at hk
      cases hk
    · rw [hcaptured x hx] at hk
      cases hk
    · rw [hcaptured x hx]
      exact Option.some_ne_none recursiveVariable
  · obtain ⟨_, rfl⟩ := hblock a c h
    exact absurd rfl hst
  · obtain ⟨rfl, rfl⟩ := hbyref v c h
    exact ⟨rfl, by decide, rfl, fun _ => ⟨_, rfl, 2, rfl, Or.inr (by simp [recursiveBlock])⟩⟩

theorem blockCopy_cyclic_recursive :
    ∃ r t, blockCopy plentiful 2 recursiveBlock = .ok (r, t) ∧
      (∀ v, recursiveBlock.byrefs v ≠ none → (heapRecords recursiveBlock t v).length ≤ 1 ∧
        keepCalls v (newEvents recursiveBlock t) ≤ 1) ∧
      (∀ h, .byrefKeep h ∈ newEvents recursiveBlock t →
        ∃ v, h ∈ heapCopies v (newEvents recursiveBlock t)) ∧
      ∀ a d, recursiveBlock.blocks a = none → t.blocks a = some d →
        ∃ src c, .mallocBlock src a ∈ newEvents recursiveBlock t ∧
          recursiveBlock.blocks src = some c ∧ c.storage = .stack ∧
          List.Forall₂ (CopiedField recursiveBlock t) c.layout.captured d.layout.captured :=
  blockCopy_cyclic plentiful_mallocOk recursiveBlock_graph (Or.inr (by simp [recursiveBlock]))

/-- The literal is copied twice, the second time from the keep helper. -/
example : ∃ t, blockCopy plentiful 2 recursiveBlock = .ok (3, t) ∧ heapCopies 1 t.trace = [4] ∧
    keepCalls 1 t.trace = 1 ∧ .mallocBlock 2 5 ∈ t.trace :=
  ⟨_, rfl, by decide, by decide, by decide⟩

end BlocksRuntime
