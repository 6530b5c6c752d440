import BlocksRuntime.Threads.Machine

/-!
# What threads leave alone

Retains and releases change flags words and free records.  Everything else
stays as it was when the threads started.

* `SharedRep` is the representation invariant of a shared memory.
* `Fades` relates the memory at the start to any later one: a record that is
  left has at most another count and another deallocating bit, and what does
  not live on the heap is untouched.
* `Fades.rep`, `Fades.external` and the lemmas about fields carry facts from
  the start over to a later memory and back.
-/

namespace BlocksRuntime.Threads

open Ownership

/-! ## The representation invariant -/

/-- A destroy helper handles the one field of its record. -/
def DestroyOk (words : List Word) : ByrefDestroy → Prop
  | .dispose field flags => flags ∈ byrefHelperFlags ∧ field < words.length
  | .release field => field < words.length

/-- What stays true of a `__block` record while threads share the memory.  On the
heap it forwards to itself. -/
structure SharedByref (a : Addr) (c : ByrefCell) : Prop where
  needsFree : c.byref.flags &&& BLOCK_BYREF_NEEDS_FREE ≠ 0 ↔ c.storage = .heap
  heap : c.storage = .heap → c.byref.forwarding = a
  byref2 : c.byref.flags &&& BLOCK_BYREF_HAS_COPY_DISPOSE ≠ 0 ↔ c.byref.byref2.isSome
  destroy : ∀ h, c.byref.byref2 = some h → DestroyOk c.byref.storage h.byrefDestroy

/-- The representation invariant of a memory that threads share. -/
structure SharedRep (s : Mem) : Prop where
  block_null : s.blocks NULL = none
  block_lt : ∀ a c, s.blocks a = some c → a < s.next
  byref_lt : ∀ a c, s.byrefs a = some c → a < s.next
  block_ok : ∀ a c, s.blocks a = some c → c.Ok a
  byref_ok : ∀ a c, s.byrefs a = some c → SharedByref a c

/-- A memory of the sequential calls may be shared. -/
theorem SharedRep.of_rep {s : Mem} (h : Rep s) : SharedRep s where
  block_null := h.block_null
  block_lt := h.block_lt
  byref_lt := h.byref_lt
  block_ok := h.block_ok
  byref_ok a c hc :=
    have hok := h.byref_ok a c hc
    { needsFree := hok.needsFree
      heap := hok.heap
      byref2 := hok.byref2
      destroy := fun b hb => by
        obtain ⟨field, flags, hd, hflags, hlt⟩ := (hok.helpers b hb).destroy
        rw [hd]
        exact ⟨hflags, hlt⟩ }

theorem SharedByref.withFlags {a : Addr} {c : ByrefCell} {w : Flags} (h : SharedByref a c)
    (hw : high w = high c.byref.flags) : SharedByref a (c.withFlags w) where
  needsFree := by
    simp only [ByrefCell.withFlags, and_eq_of_high_eq hw BLOCK_BYREF_NEEDS_FREE (by decide)]
    exact h.needsFree
  heap := h.heap
  byref2 := by
    simp only [ByrefCell.withFlags, and_eq_of_high_eq hw BLOCK_BYREF_HAS_COPY_DISPOSE (by decide)]
    exact h.byref2
  destroy := h.destroy

section

variable {s : Mem} {r : Ref} {x : HeapRecord}

theorem SharedRep.lt (h : SharedRep s) (hx : recordAt s r = some x) : addrOf r < s.next := by
  cases r with
  | block a =>
    obtain ⟨c, hc, _⟩ := Option.map_eq_some_iff.1 hx
    exact h.block_lt a c hc
  | byref a =>
    obtain ⟨c, hc, _⟩ := Option.map_eq_some_iff.1 hx
    exact h.byref_lt a c hc
  | object o => cases hx

/-- A live record has a node. -/
theorem SharedRep.node (h : SharedRep s) (hx : recordAt s r = some x) (hl : x.Live) :
    (sharedGraph s).node r = some x.node := sharedNode_live hx (h.lt hx) hl

/-- A block without helpers owns nothing. -/
theorem SharedRep.block_plain (h : SharedRep s) {b : Addr} {c : BlockCell}
    (hc : s.blocks b = some c) (hd : blockDescriptor2 c.layout = none) :
    ownedRefs c.layout.captured = 0 := by
  refine ownedRefs_plain ((h.block_ok b c hc).helpers ?_)
  unfold blockDescriptor2 at hd
  by_contra hne
  rw [if_neg hne] at hd
  cases hd

/-- The helper of a block has a descriptor word. -/
theorem SharedRep.block_word (h : SharedRep s) {b : Addr} {c : BlockCell} {desc : List Word}
    (hc : s.blocks b = some c) (hd : blockDescriptor2 c.layout = some desc) :
    desc[1]? = some (desc.getD 1 0) := by
  have hflag : c.layout.flags &&& BLOCK_HAS_COPY_DISPOSE ≠ 0 := fun hz => by
    rw [blockDescriptor2, if_pos hz] at hd
    cases hd
  have hlen := (h.block_ok b c hc).descriptor hflag
  rw [blockDescriptor2, if_neg hflag, Option.some.injEq] at hd
  subst hd
  rw [List.getD_eq_getElem?_getD, List.getElem?_eq_getElem (by simp; omega)]
  rfl

theorem blockRecord_of {b : Addr} {c : BlockCell} (hc : s.blocks b = some c) :
    recordAt s (.block b) = some (blockRecord c) := by
  simp [recordAt, hc]

theorem byrefRecord_of {p : Addr} {c : ByrefCell} (hc : s.byrefs p = some c) :
    recordAt s (.byref p) = some (byrefRecord c) := by
  simp [recordAt, hc]

end

/-! ## Fading -/

/-- Heap records may have other counts or be gone, and all else stays. -/
structure Fades (s t : Mem) : Prop where
  next : t.next = s.next
  block : ∀ a d, t.blocks a = some d →
    ∃ c w, s.blocks a = some c ∧ d = c.withFlags w ∧ high w = high c.layout.flags
  byref : ∀ a d, t.byrefs a = some d →
    ∃ c w, s.byrefs a = some c ∧ d = c.withFlags w ∧ high w = high c.byref.flags
  block_kept : ∀ a c, s.blocks a = some c → c.storage ≠ .heap → t.blocks a = some c
  byref_kept : ∀ a c, s.byrefs a = some c → c.storage ≠ .heap → t.byrefs a = some c

section

variable {s t u : Mem} {r : Ref} {x : HeapRecord} {w : Flags}

theorem SameCells.fades (h : SameCells s t) : Fades s t where
  next := h.next
  block _ d hd := ⟨d, d.layout.flags, h.blocks ▸ hd, rfl, rfl⟩
  byref _ d hd := ⟨d, d.byref.flags, h.byrefs ▸ hd, rfl, rfl⟩
  block_kept _ _ hc _ := h.blocks ▸ hc
  byref_kept _ _ hc _ := h.byrefs ▸ hc

theorem Fades.refl (s : Mem) : Fades s s := (SameCells.refl s).fades

theorem Fades.trans (h : Fades s t) (h' : Fades t u) : Fades s u where
  next := h'.next.trans h.next
  block a d hd := by
    obtain ⟨c', w', hc', rfl, hw'⟩ := h'.block a d hd
    obtain ⟨c, w, hc, rfl, hw⟩ := h.block a c' hc'
    exact ⟨c, w', hc, rfl, hw'.trans hw⟩
  byref a d hd := by
    obtain ⟨c', w', hc', rfl, hw'⟩ := h'.byref a d hd
    obtain ⟨c, w, hc, rfl, hw⟩ := h.byref a c' hc'
    exact ⟨c, w', hc, rfl, hw'.trans hw⟩
  block_kept a c hc hs := h'.block_kept a c (h.block_kept a c hc hs) hs
  byref_kept a c hc hs := h'.byref_kept a c (h.byref_kept a c hc hs) hs

/-- Another count of a heap record. -/
theorem fades_setWord (hx : recordAt s r = some x) (hheap : x.storage = .heap)
    (hw : high w = high x.word) : Fades s (Mem.setWord s r w) := by
  cases r with
  | block a =>
    obtain ⟨c, hc, rfl⟩ := Option.map_eq_some_iff.1 hx
    simp only [Mem.setWord, hc]
    refine ⟨rfl, fun b d hd => ?_, fun b d hd => ⟨d, d.byref.flags, hd, rfl, rfl⟩,
      fun b d hd hs => ?_, fun b d hd _ => hd⟩
    · by_cases hba : b = a
      · subst hba
        rw [Mem.setBlock_blocks_self, Option.some.injEq] at hd
        exact ⟨c, w, hc, hd.symm, hw⟩
      · rw [Mem.setBlock_blocks_ne s _ hba] at hd
        exact ⟨d, d.layout.flags, hd, rfl, rfl⟩
    · have hba : b ≠ a := fun hba => by
        rw [hba, hc, Option.some.injEq] at hd
        exact hs (hd ▸ hheap)
      rw [Mem.setBlock_blocks_ne s _ hba]
      exact hd
  | byref a =>
    obtain ⟨c, hc, rfl⟩ := Option.map_eq_some_iff.1 hx
    simp only [Mem.setWord, hc]
    refine ⟨rfl, fun b d hd => ⟨d, d.layout.flags, hd, rfl, rfl⟩, fun b d hd => ?_,
      fun b d hd _ => hd, fun b d hd hs => ?_⟩
    · by_cases hba : b = a
      · subst hba
        rw [Mem.setByref_byrefs_self, Option.some.injEq] at hd
        exact ⟨c, w, hc, hd.symm, hw⟩
      · rw [Mem.setByref_byrefs_ne s _ hba] at hd
        exact ⟨d, d.byref.flags, hd, rfl, rfl⟩
    · have hba : b ≠ a := fun hba => by
        rw [hba, hc, Option.some.injEq] at hd
        exact hs (hd ▸ hheap)
      rw [Mem.setByref_byrefs_ne s _ hba]
      exact hd
  | object o => cases hx

/-- A heap record is freed. -/
theorem fades_erase (hx : recordAt s r = some x) (hheap : x.storage = .heap) :
    Fades s (Mem.eraseRecord s r) := by
  cases r with
  | block a =>
    obtain ⟨c, hc, rfl⟩ := Option.map_eq_some_iff.1 hx
    refine ⟨rfl, fun b d hd => ?_, fun b d hd => ⟨d, d.byref.flags, hd, rfl, rfl⟩,
      fun b d hd hs => ?_, fun b d hd _ => hd⟩
    · by_cases hba : b = a
      · subst hba
        rw [Mem.eraseRecord, Mem.eraseBlock_blocks_self] at hd
        cases hd
      · rw [Mem.eraseRecord, Mem.eraseBlock_blocks_ne s hba] at hd
        exact ⟨d, d.layout.flags, hd, rfl, rfl⟩
    · have hba : b ≠ a := fun hba => by
        rw [hba, hc, Option.some.injEq] at hd
        exact hs (hd ▸ hheap)
      rw [Mem.eraseRecord, Mem.eraseBlock_blocks_ne s hba]
      exact hd
  | byref a =>
    obtain ⟨c, hc, rfl⟩ := Option.map_eq_some_iff.1 hx
    refine ⟨rfl, fun b d hd => ⟨d, d.layout.flags, hd, rfl, rfl⟩, fun b d hd => ?_,
      fun b d hd _ => hd, fun b d hd hs => ?_⟩
    · by_cases hba : b = a
      · subst hba
        rw [Mem.eraseRecord, Mem.eraseByref_byrefs_self] at hd
        cases hd
      · rw [Mem.eraseRecord, Mem.eraseByref_byrefs_ne s hba] at hd
        exact ⟨d, d.byref.flags, hd, rfl, rfl⟩
    · have hba : b ≠ a := fun hba => by
        rw [hba, hc, Option.some.injEq] at hd
        exact hs (hd ▸ hheap)
      rw [Mem.eraseRecord, Mem.eraseByref_byrefs_ne s hba]
      exact hd
  | object o => cases hx

/-! ## What carries over -/

theorem Fades.rep (h : Fades s t) (hs : SharedRep s) : SharedRep t where
  block_null := by
    cases hd : t.blocks NULL with
    | none => rfl
    | some d =>
      obtain ⟨c, _, hc, _⟩ := h.block NULL d hd
      rw [hs.block_null] at hc
      cases hc
  block_lt a d hd := by
    obtain ⟨c, _, hc, _⟩ := h.block a d hd
    rw [h.next]
    exact hs.block_lt a c hc
  byref_lt a d hd := by
    obtain ⟨c, _, hc, _⟩ := h.byref a d hd
    rw [h.next]
    exact hs.byref_lt a c hc
  block_ok a d hd := by
    obtain ⟨c, w, hc, rfl, hw⟩ := h.block a d hd
    exact (hs.block_ok a c hc).withFlags hw
  byref_ok a d hd := by
    obtain ⟨c, w, hc, rfl, hw⟩ := h.byref a d hd
    exact (hs.byref_ok a c hc).withFlags hw

/-- What is left of a record. -/
theorem Fades.record (h : Fades s t) (hx : recordAt t r = some x) :
    ∃ y, recordAt s r = some y ∧ x.storage = y.storage ∧ x.owns = y.owns ∧
      high x.word = high y.word := by
  cases r with
  | block a =>
    obtain ⟨d, hd, rfl⟩ := Option.map_eq_some_iff.1 hx
    obtain ⟨c, w, hc, rfl, hw⟩ := h.block a d hd
    exact ⟨_, blockRecord_of hc, rfl, rfl, hw⟩
  | byref a =>
    obtain ⟨d, hd, rfl⟩ := Option.map_eq_some_iff.1 hx
    obtain ⟨c, w, hc, rfl, hw⟩ := h.byref a d hd
    exact ⟨_, byrefRecord_of hc, rfl, rfl, hw⟩
  | object o => cases hx

/-- A record that is not on the heap is untouched. -/
theorem Fades.record_kept (h : Fades s t) (hx : recordAt s r = some x) (hne : x.storage ≠ .heap) :
    recordAt t r = some x := by
  cases r with
  | block a =>
    obtain ⟨c, hc, rfl⟩ := Option.map_eq_some_iff.1 hx
    exact blockRecord_of (h.block_kept a c hc hne)
  | byref a =>
    obtain ⟨c, hc, rfl⟩ := Option.map_eq_some_iff.1 hx
    exact byrefRecord_of (h.byref_kept a c hc hne)
  | object o => cases hx

/-- A record owns what it owned at the start. -/
theorem Fades.ownsOf (h : Fades s t) (hx : recordAt t r = some x) :
    Frame.ownsOf s r = x.owns := by
  obtain ⟨y, hy, _, howns, _⟩ := h.record hx
  rw [Frame.ownsOf, hy, howns]

theorem Fades.external (h : Fades s t) : External t = External s := by
  funext r
  cases r with
  | block a =>
    simp only [External, eq_iff_iff]
    refine or_congr Iff.rfl ⟨?_, ?_⟩
    · rintro ⟨d, hd, hg⟩
      obtain ⟨c, w, hc, rfl, _⟩ := h.block a d hd
      exact ⟨c, hc, hg⟩
    · rintro ⟨c, hc, hg⟩
      exact ⟨c, h.block_kept a c hc (by rw [hg]; decide), hg⟩
  | byref a => rfl
  | object o => rfl

/-- Two later memories with the same records are the same. -/
theorem Fades.sameCells (h : Fades s t) (h' : Fades s u) (heq : ∀ r, recordAt t r = recordAt u r) :
    SameCells t u where
  blocks := by
    funext a
    have ha := heq (.block a)
    cases hd : t.blocks a with
    | none => cases he : u.blocks a with
      | none => rfl
      | some e => simp [recordAt, hd, he] at ha
    | some d => cases he : u.blocks a with
      | none => simp [recordAt, hd, he] at ha
      | some e =>
        obtain ⟨c, w, hc, rfl, _⟩ := h.block a d hd
        obtain ⟨c', w', hc', rfl, _⟩ := h'.block a e he
        obtain rfl : c = c' := Option.some.inj (hc.symm.trans hc')
        have hrec : blockRecord (c.withFlags w) = blockRecord (c.withFlags w') := by
          simpa [recordAt, hd, he] using ha
        have hw : w = w' := congrArg HeapRecord.word hrec
        rw [hw]
  byrefs := by
    funext a
    have ha := heq (.byref a)
    cases hd : t.byrefs a with
    | none => cases he : u.byrefs a with
      | none => rfl
      | some e => simp [recordAt, hd, he] at ha
    | some d => cases he : u.byrefs a with
      | none => simp [recordAt, hd, he] at ha
      | some e =>
        obtain ⟨c, w, hc, rfl, _⟩ := h.byref a d hd
        obtain ⟨c', w', hc', rfl, _⟩ := h'.byref a e he
        obtain rfl : c = c' := Option.some.inj (hc.symm.trans hc')
        have hrec : byrefRecord (c.withFlags w) = byrefRecord (c.withFlags w') := by
          simpa [recordAt, hd, he] using ha
        have hw : w = w' := congrArg HeapRecord.word hrec
        rw [hw]
  next := h'.next.trans h.next.symm

theorem Fades.forwardOf (h : Fades s t) {v : Addr} {d : ByrefCell} (hd : t.byrefs v = some d) :
    forwardOf s v = d.byref.forwarding := by
  obtain ⟨c, w, hc, rfl, _⟩ := h.byref v d hd
  rw [forwardOf_some hc]
  rfl

end

end BlocksRuntime.Threads
