import BlocksRuntime.CopyingFrame

/-!
# What no call changes in a block

Whatever a call does and however it nests, a block that is there before and
after it has the same descriptor and the same high half of its flags word.
Nothing here needs the ownership discipline: the statements are about every run
that comes to an end.

* `KeepsMetadata` relates two memories in this way.
* `Keeping` says it of an operation, and has one rule for each way to build
  operations.
* `keepsMetadata_copying` makes it a frame of copying, and `blockCopyBody_cases`
  says what a copy starts with.
* `blockReleaseBody_keeping` is the other function that writes flags words, with
  arbitrary helpers that are `Keeping` themselves.
* `blockObjectDisposeN_keeping` ties the recursion, so the generated dispose
  helpers are `Keeping`.
-/

namespace BlocksRuntime

open RetryLoop StateFrame

/-- No block is at `NULL` or at an address that was not handed out yet. -/
structure Fresh (s : Mem) : Prop where
  pos : NULL < s.next
  null : s.blocks NULL = none
  beyond : ∀ a, s.next ≤ a → s.blocks a = none

/-- Two blocks with the same descriptor and compiler flags. -/
structure SameMetadata (c d : BlockCell) : Prop where
  descriptor : d.layout.descriptor = c.layout.descriptor
  high : high d.layout.flags = high c.layout.flags

/-- Blocks keep their metadata, and an address is not used twice. -/
structure KeepsMetadata (s t : Mem) : Prop where
  next : s.next ≤ t.next
  blocks : ∀ a c d, s.blocks a = some c → t.blocks a = some d → SameMetadata c d
  gone : ∀ a, a < s.next → s.blocks a = none → t.blocks a = none

/-- The operation keeps the metadata of every block. -/
abbrev Keeping {β : Type} (x : M β) : Prop := Stays Fresh KeepsMetadata x

section Relation

variable {s t u : Mem} {a : Addr} {c d : BlockCell}

theorem SameMetadata.refl (c : BlockCell) : SameMetadata c c := ⟨rfl, rfl⟩

theorem SameMetadata.trans {e : BlockCell} (h : SameMetadata c d) (h' : SameMetadata d e) :
    SameMetadata c e :=
  ⟨h'.descriptor.trans h.descriptor, h'.high.trans h.high⟩

theorem Fresh.lt (h : Fresh s) (hc : s.blocks a = some c) : a < s.next := by
  by_contra hle
  rw [h.beyond a (Nat.le_of_not_lt hle)] at hc
  cases hc

theorem KeepsMetadata.refl (s : Mem) : KeepsMetadata s s where
  next := Nat.le_refl _
  blocks a c d hc hd := by
    obtain rfl : c = d := Option.some.inj (hc.symm.trans hd)
    exact SameMetadata.refl c
  gone _ _ h := h

theorem KeepsMetadata.trans (hs : Fresh s) (h : KeepsMetadata s t) (h' : KeepsMetadata t u) :
    KeepsMetadata s u where
  next := h.next.trans h'.next
  blocks a c e hc he := by
    cases hd : t.blocks a with
    | none =>
      have hlt := Nat.lt_of_lt_of_le (hs.lt hc) h.next
      rw [h'.gone a hlt hd] at he
      cases he
    | some d => exact (h.blocks a c d hc hd).trans (h'.blocks a d e hd he)
  gone a hlt ha := h'.gone a (Nat.lt_of_lt_of_le hlt h.next) (h.gone a hlt ha)

/-- Operations that leave the blocks alone. -/
theorem keepsMetadata_of_blocks_eq (hs : Fresh s) (hb : t.blocks = s.blocks)
    (hn : s.next ≤ t.next) :
    Fresh t ∧ KeepsMetadata s t := by
  refine ⟨⟨Nat.lt_of_lt_of_le hs.pos hn, hb ▸ hs.null, fun a ha => ?_⟩, hn, ?_, ?_⟩
  · rw [hb]
    exact hs.beyond a (hn.trans ha)
  · intro a c d hc hd
    rw [hb, hc, Option.some.injEq] at hd
    exact hd ▸ SameMetadata.refl c
  · intro a _ ha
    rw [hb]
    exact ha

/-- Changing one block. -/
theorem keepsMetadata_setBlock (hs : Fresh s) (hc : s.blocks a = some c)
    (hsame : SameMetadata c d) :
    Fresh (s.setBlock a d) ∧ KeepsMetadata s (s.setBlock a d) := by
  have hlt := hs.lt hc
  refine ⟨⟨hs.pos, ?_, fun b hb => ?_⟩, Nat.le_refl _, ?_, ?_⟩
  · have hne : NULL ≠ a := by
      rintro rfl
      rw [hs.null] at hc
      cases hc
    rw [Mem.setBlock_blocks_ne _ _ hne, hs.null]
  · rw [Mem.setBlock_blocks_ne _ _ (Nat.ne_of_gt (Nat.lt_of_lt_of_le hlt hb))]
    exact hs.beyond b hb
  · intro b e f he hf
    rcases Mem.setBlock_cases d hc he with ⟨_, rfl, hself⟩ | ⟨_, hother⟩
    · obtain rfl := Option.some.inj (hself.symm.trans hf)
      exact hsame
    · obtain rfl := Option.some.inj (hother.symm.trans hf)
      exact SameMetadata.refl e
  · exact fun b _ hb => Mem.setBlock_none d hc hb

/-- Freeing one block. -/
theorem keepsMetadata_eraseBlock (hs : Fresh s) :
    Fresh (s.eraseBlock a) ∧ KeepsMetadata s (s.eraseBlock a) := by
  have hnone : ∀ b, s.blocks b = none → (s.eraseBlock a).blocks b = none := by
    intro b hb
    by_cases hba : b = a
    · rw [hba, Mem.eraseBlock_blocks_self]
    · rw [Mem.eraseBlock_blocks_ne _ hba]
      exact hb
  refine ⟨⟨hs.pos, hnone _ hs.null, fun b hb => hnone b (hs.beyond b hb)⟩, Nat.le_refl _, ?_,
    fun b _ hb => hnone b hb⟩
  intro b e f he hf
  by_cases hba : b = a
  · rw [hba, Mem.eraseBlock_blocks_self] at hf
    cases hf
  · rw [Mem.eraseBlock_blocks_ne _ hba] at hf
    obtain rfl : e = f := Option.some.inj (he.symm.trans hf)
    exact SameMetadata.refl e

/-- A block at the next address. -/
theorem keepsMetadata_newBlock (hs : Fresh s)
    (hb : t.blocks = Function.update s.blocks s.next (some c)) (hn : t.next = s.next + 1) :
    Fresh t ∧ KeepsMetadata s t := by
  have hne : ∀ b, b ≠ s.next → t.blocks b = s.blocks b := fun b hb' => by
    rw [hb, Function.update_of_ne hb']
  have hold : ∀ b, b < s.next → t.blocks b = s.blocks b := fun b hlt => hne b (Nat.ne_of_lt hlt)
  refine ⟨⟨?_, ?_, fun b hle => ?_⟩, ?_, ?_, fun b hlt h => (hold b hlt).trans h⟩
  · rw [hn]
    exact Nat.lt_succ_of_lt hs.pos
  · rw [hold NULL hs.pos, hs.null]
  · rw [hn] at hle
    rw [hne b (Nat.ne_of_gt hle), hs.beyond b (Nat.le_of_succ_le hle)]
  · rw [hn]
    exact Nat.le_succ _
  · intro b e f he hf
    rw [hold b (hs.lt he)] at hf
    obtain rfl : e = f := Option.some.inj (he.symm.trans hf)
    exact SameMetadata.refl e

theorem keepsMetadata_isFrame : IsFrame Fresh KeepsMetadata where
  refl s _ := KeepsMetadata.refl s
  trans _ _ _ hs h h' := h.trans hs h'

end Relation

/-! ## Primitive operations -/

section Primitive

variable {β γ : Type} {a : Addr}

theorem keeping_pure (b : β) : Keeping (pure b : M β) := Stays.pure keepsMetadata_isFrame b

theorem Keeping.bind {x : M β} {f : β → M γ} (hx : Keeping x) (hf : ∀ b, Keeping (f b)) :
    Keeping (x >>= f) :=
  Stays.bind keepsMetadata_isFrame hx hf

/-- Operations that leave the blocks alone. -/
theorem keeping_of_blocks_eq {x : M β}
    (h : ∀ s b t, x s = .ok (b, t) → t.blocks = s.blocks ∧ s.next ≤ t.next) : Keeping x := by
  intro s b t hs hrun
  obtain ⟨hb, hn⟩ := h s b t hrun
  exact keepsMetadata_of_blocks_eq hs hb hn

theorem keeping_fault (e : Fault) : Keeping (fault e : M β) := Stays.of_error fun _ => ⟨e, rfl⟩

theorem keeping_log (e : Event) : Keeping (log e) :=
  keeping_of_blocks_eq fun s b t h => by
    obtain ⟨_, rfl⟩ := Prod.mk.inj (Except.ok.inj h)
    exact ⟨rfl, Nat.le_refl _⟩

theorem keeping_wordAt (words : List Word) (i : Nat) : Keeping (wordAt words i) := by
  unfold wordAt
  split
  · exact keeping_pure _
  · exact keeping_fault _

theorem keeping_loadBlock (a : Addr) : Keeping (loadBlock a) :=
  keeping_of_blocks_eq fun s b t h => by
    obtain ⟨rfl, _⟩ := loadBlock_inv h
    exact ⟨rfl, Nat.le_refl _⟩

theorem keeping_loadByref (a : Addr) : Keeping (loadByref a) :=
  keeping_of_blocks_eq fun s b t h => by
    obtain ⟨rfl, _⟩ := loadByref_inv h
    exact ⟨rfl, Nat.le_refl _⟩

theorem keeping_updateByref (a : Addr) (f : BlockByref → BlockByref) : Keeping (updateByref a f) :=
  keeping_of_blocks_eq fun s b t h => by
    obtain ⟨_, _, rfl⟩ := updateByref_inv h
    exact ⟨rfl, Nat.le_refl _⟩

theorem keeping_loopByrefFlags (a : Addr) (loop : Flags → Attempt Flags β) :
    Keeping (loopByrefFlags a loop) :=
  keeping_of_blocks_eq fun s b t h => by
    obtain ⟨_, _, _, _, rfl⟩ := loopByrefFlags_inv h
    exact ⟨rfl, Nat.le_refl _⟩

theorem keeping_freeByref (a : Addr) : Keeping (freeByref a) :=
  keeping_of_blocks_eq fun s b t h => by
    unfold freeByref at h
    split at h
    · obtain ⟨_, rfl⟩ := Prod.mk.inj (Except.ok.inj h)
      exact ⟨rfl, Nat.le_refl _⟩
    · cases h

theorem keeping_freeBlock (a : Addr) : Keeping (freeBlock a) := by
  intro s b t hs h
  unfold freeBlock at h
  split at h
  · obtain ⟨_, rfl⟩ := Prod.mk.inj (Except.ok.inj h)
    have herase := keepsMetadata_eraseBlock (a := a) hs
    exact (keeping_log (.freeBlock a)).after keepsMetadata_isFrame hs herase rfl
  · cases h

/-- A store into a block, away from its descriptor and its compiler flags. -/
theorem keeping_updateBlock {f : BlockLayout → BlockLayout}
    (h : ∀ b, (f b).descriptor = b.descriptor ∧ high (f b).flags = high b.flags) :
    Keeping (updateBlock a f) := by
  intro s b t hs hrun
  obtain ⟨c, hc, rfl⟩ := updateBlock_inv hrun
  exact keepsMetadata_setBlock hs hc ⟨(h c.layout).1, (h c.layout).2⟩

theorem keeping_loopBlockFlags {loop : Flags → Attempt Flags β}
    (h : ∀ w, high ((loop w).run w).2 = high w) : Keeping (loopBlockFlags a loop) := by
  intro s b t hs hrun
  obtain ⟨c, w, hc, hloop, rfl⟩ := loopBlockFlags_inv hrun
  have hhigh := h c.layout.flags
  rw [hloop] at hhigh
  exact keepsMetadata_setBlock hs hc ⟨rfl, hhigh⟩

end Primitive

/-! ## The three loops -/

theorem high_incr_run (w : Flags) : high ((latchingIncrInt w).run w).2 = high w := by
  obtain ⟨r, v, hrun, _, hmeta⟩ := incr_run_views w
  rw [hrun]
  exact hmeta.high

theorem high_tryIncr_run (w : Flags) :
    high ((latchingIncrIntNotDeallocating w).run w).2 = high w := by
  cases hd : isDeallocating w with
  | true => rw [tryIncr_run_deallocating hd]
  | false =>
    obtain ⟨v, hrun, _, hmeta⟩ := tryIncr_run hd
    rw [hrun]
    exact hmeta.high

theorem high_decr_run (w : Flags) :
    high ((latchingDecrIntShouldDeallocate w).run w).2 = high w := by
  cases hpass : latchingDecrIntShouldDeallocate w with
  | exit r => rfl
  | cas new r =>
    obtain ⟨_, ⟨_, _, _, _, _, hhigh⟩ | ⟨_, _, _, hmeta⟩⟩ := decr_cas hpass
    · exact hhigh
    · exact hmeta.high

/-! ## Copying -/

/-- Copying keeps the metadata of every block. -/
theorem keepsMetadata_copying (env : Env) : CopyingFrame env Fresh KeepsMetadata where
  isFrame := keepsMetadata_isFrame
  log := keeping_log
  noMemory _ hs := keepsMetadata_of_blocks_eq hs rfl (Nat.le_refl _)
  newBlock _ _ _ hs _ := keepsMetadata_newBlock hs rfl rfl
  updateBlock _ _ hf := keeping_updateBlock fun b => ⟨(hf b).1, congrArg high (hf b).2⟩
  incrBlock _ := keeping_loopBlockFlags high_incr_run
  newByref s v c _ hs _ _ _ t hrun := by
    have hblank : Fresh (s.blankCopy env v c) ∧ KeepsMetadata s (s.blankCopy env v c) :=
      keepsMetadata_of_blocks_eq hs rfl (Nat.le_succ _)
    exact (keeping_updateByref v _).after keepsMetadata_isFrame hs hblank hrun
  updateByref a f _ := keeping_updateByref a f
  incrByref _ := keeping_loopByrefFlags _ _

section Copying

variable {env : Env} {copyHelper : Addr → Addr → M Unit}

/-- What `_Block_copy` comes to: the same pointer, `NULL`, or a new block that
starts with the metadata of the old one. -/
theorem blockCopyBody_cases (hhelper : ∀ dst src, Keeping (copyHelper dst src)) {s u : Mem}
    {a r : Addr} (hs : Fresh s) (hrun : blockCopyBody env copyHelper a s = .ok (r, u)) :
    Fresh u ∧ KeepsMetadata s u ∧ (r = a ∨ r = NULL ∨ r = s.next ∧ r < u.next ∧
      ∃ c, s.blocks a = some c ∧ ∀ d, u.blocks r = some d → SameMetadata (halfCopied c) d) := by
  unfold blockCopyBody at hrun
  split at hrun
  · obtain ⟨rfl, rfl⟩ := Prod.mk.inj (Except.ok.inj hrun)
    exact ⟨hs, KeepsMetadata.refl s, Or.inr (Or.inl rfl)⟩
  obtain ⟨b, s', hload, hrun⟩ := bind_eq_ok hrun
  obtain ⟨he, c, hc, rfl⟩ := loadBlock_inv hload
  subst s'
  split at hrun
  · have hkeep : Keeping (do
        let _ ← loopBlockFlags a latchingIncrInt
        return a : M Addr) :=
      (keeping_loopBlockFlags high_incr_run).bind fun _ => keeping_pure a
    obtain ⟨hu, hks⟩ := hkeep s r u hs hrun
    obtain ⟨_, _, _, hret⟩ := bind_eq_ok hrun
    exact ⟨hu, hks, Or.inl (Prod.mk.inj (Except.ok.inj hret)).1.symm⟩
  split at hrun
  · obtain ⟨rfl, rfl⟩ := Prod.mk.inj (Except.ok.inj hrun)
    exact ⟨hs, KeepsMetadata.refl s, Or.inl rfl⟩
  cases hm : env.mallocOk s.mallocs with
  | false =>
    rw [bind_ok (malloc_none hm)] at hrun
    obtain ⟨rfl, rfl⟩ := Prod.mk.inj (Except.ok.inj hrun)
    obtain ⟨hu, hks⟩ := keepsMetadata_of_blocks_eq (t := { s with mallocs := s.mallocs + 1 }) hs rfl
      (Nat.le_refl _)
    exact ⟨hu, hks, Or.inr (Or.inl rfl)⟩
  | true =>
    rw [bind_ok (malloc_ok hm)] at hrun
    simp only at hrun
    rw [bind_ok (log_apply _ _), bind_ok (storeBlock_apply _ _ _)] at hrun
    -- The new block is in place; the rest of the call keeps its metadata.
    obtain ⟨hmid, hks⟩ := (keepsMetadata_copying env).newBlock s a c hs hc
    have hrest := (keepsMetadata_copying env).finishCopy_stays hhelper s.next a _ r u hmid hrun
    have hr : r = s.next := by
      obtain ⟨_, _, _, hrun⟩ := bind_eq_ok hrun
      obtain ⟨_, _, _, hrun⟩ := bind_eq_ok hrun
      exact (Prod.mk.inj (Except.ok.inj hrun)).1.symm
    refine ⟨hrest.1, hks.trans hs hrest.2, Or.inr (Or.inr ⟨hr, ?_, c, hc, fun d hd => ?_⟩)⟩
    · rw [hr]
      exact hrest.2.next
    · rw [hr] at hd
      exact hrest.2.blocks s.next _ d (Mem.setBlock_blocks_self ..) hd

end Copying

/-! ## Releasing -/

section Releasing

variable {disposeHelper destructInstance byrefDestroy : Addr → M Unit}

theorem blockCallDisposeHelper_keeping (hhelper : ∀ a, Keeping (disposeHelper a)) (a : Addr) :
    Keeping (blockCallDisposeHelper disposeHelper a) := by
  refine (keeping_loadBlock a).bind fun b => ?_
  split
  · exact keeping_pure ()
  · exact (keeping_wordAt _ _).bind fun _ => (keeping_log _).bind fun _ => hhelper a

theorem blockReleaseBody_keeping (hhelper : ∀ a, Keeping (disposeHelper a))
    (hdestruct : ∀ a, Keeping (destructInstance a)) (a : Addr) :
    Keeping (blockReleaseBody disposeHelper destructInstance a) := by
  refine Stays.ite (keeping_pure ()) ((keeping_loadBlock a).bind fun b => ?_)
  refine Stays.ite (keeping_pure ()) (Stays.ite (keeping_pure ()) ?_)
  refine (keeping_loopBlockFlags high_decr_run).bind fun verdict => Stays.ite ?_ (keeping_pure ())
  exact (blockCallDisposeHelper_keeping hhelper a).bind fun _ =>
    (hdestruct a).bind fun _ => keeping_freeBlock a

theorem blockByrefReleaseBody_keeping (hdestroy : ∀ a, Keeping (byrefDestroy a)) (a : Addr) :
    Keeping (blockByrefReleaseBody byrefDestroy a) := by
  refine (keeping_loadByref a).bind fun record => (keeping_loadByref _).bind fun target => ?_
  refine Stays.ite ?_ (keeping_pure ())
  have hloop : Keeping (do
      if ← loopByrefFlags record.forwarding latchingDecrIntShouldDeallocate then
        let target ← loadByref record.forwarding
        if target.flags &&& BLOCK_BYREF_HAS_COPY_DISPOSE ≠ 0 then
          log (.byrefDestroy record.forwarding)
          byrefDestroy record.forwarding
        freeByref record.forwarding : M Unit) := by
    refine (keeping_loopByrefFlags _ _).bind fun verdict => Stays.ite ?_ (keeping_pure ())
    refine (keeping_loadByref _).bind fun target => Stays.ite ?_ (keeping_freeByref _)
    exact (keeping_log _).bind fun _ => (hdestroy _).bind fun _ => keeping_freeByref _
  exact Stays.ite ((keeping_fault _).bind fun _ => hloop) hloop

theorem blockObjectDisposeBody_keeping
    {releaseObject blockRelease blockByrefRelease : Addr → M Unit}
    (hobject : ∀ o, Keeping (releaseObject o)) (hblock : ∀ a, Keeping (blockRelease a))
    (hbyref : ∀ a, Keeping (blockByrefRelease a)) (object : Addr) (flags : Flags) :
    Keeping (blockObjectDisposeBody releaseObject blockRelease blockByrefRelease object flags) :=
  Stays.ite (hbyref object) (Stays.ite (hblock object) (Stays.ite (hobject object)
    (keeping_pure ())))

theorem disposeHelper_keeping {dispose : Addr → Flags → M Unit}
    (hdispose : ∀ object flags, Keeping (dispose object flags)) (a : Addr) :
    Keeping (BlocksRuntime.disposeHelper dispose a) := by
  refine (keeping_loadBlock a).bind fun b => ?_
  induction b.captured with
  | nil => exact keeping_pure ()
  | cons x xs ih =>
    unfold disposeFields
    split
    · exact (keeping_pure ()).bind fun _ => ih
    · exact (hdispose _ _).bind fun _ => ih

theorem byrefDestroyHelper_keeping {dispose : Addr → Flags → M Unit} {blockRelease : Addr → M Unit}
    (hdispose : ∀ object flags, Keeping (dispose object flags))
    (hblock : ∀ a, Keeping (blockRelease a)) (a : Addr) :
    Keeping (byrefDestroyHelper dispose blockRelease a) := by
  refine (keeping_loadByref a).bind fun record => ?_
  split
  · exact keeping_fault _
  · split
    · exact (keeping_wordAt _ _).bind fun _ => hdispose _ _
    · exact (keeping_wordAt _ _).bind fun _ => hblock _

/-- `_Block_object_dispose`, to any depth. -/
theorem blockObjectDisposeN_keeping (n : Nat) (object : Addr) (flags : Flags) :
    Keeping (blockObjectDisposeN n object flags) := by
  induction n generalizing object flags with
  | zero => exact keeping_fault _
  | succ n ih =>
    have hblock : ∀ a, Keeping (blockReleaseN n a) :=
      blockReleaseBody_keeping (disposeHelper_keeping ih) fun _ => keeping_log _
    exact blockObjectDisposeBody_keeping (fun _ => keeping_log _) hblock
      (blockByrefReleaseBody_keeping (byrefDestroyHelper_keeping ih hblock)) object flags

end Releasing

end BlocksRuntime
