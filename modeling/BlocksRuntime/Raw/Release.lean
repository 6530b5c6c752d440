import BlocksRuntime.Raw.Frames
import BlocksRuntime.Raw.Represents

/-!
# Releasing, on bytes

Whenever a call on records returns, the call on the bytes that represent them
returns too, and its bytes represent what the records have become.

* `refines_blockReleaseBody` and `refines_blockByrefReleaseBody` are the two
  functions that free.
* `refines_blockObjectDisposeN` is the induction over the depth of the calls.
  A dispose helper reads each field when it comes to it.  `Dropped` says that
  the field is still what it was.
-/

namespace BlocksRuntime.Raw

open RetryLoop ByteMemory StateFrame StateRefinement

/-- The bytes do what the records do.  Nothing is allocated, so there is no
guard. -/
abbrev Releases {β : Type} (im : Image) (x : RawM β) (y : M β) : Prop :=
  Refines (Represents im ∅) (fun _ => True) x y

section

variable {im : Image} {U : Set Addr} {r : RawMem} {s t : Mem} {a : Addr}

theorem releases_pure {β : Type} (b : β) : Releases im (pure b) (pure b) := Refines.pure b

theorem releases_log (e : Event) : Releases im (log e) (BlocksRuntime.log e) := by
  rintro r s b t h hrun -
  obtain ⟨_, rfl⟩ := Prod.mk.inj (Except.ok.inj hrun)
  exact ⟨_, rfl, h.log e⟩

/-! ## Flags words -/

/-- A retry loop on the flags word of a block. -/
theorem Represents.loopBlock {ρ : Type} {loop : Flags → Attempt Flags ρ} {res : ρ}
    (h : Represents im U r s) (hhigh : ∀ w, high ((loop w).run w).2 = high w)
    (hrun : loopBlockFlags a loop s = .ok (res, t)) :
    ∃ u, loopFlags a 8 loop r = .ok (res, u) ∧ Represents im U u t := by
  obtain ⟨c, w, hc, hw, rfl⟩ := loopBlockFlags_inv hrun
  obtain ⟨o, ho, hb⟩ := h.block a c hc
  obtain ⟨p, hp, hstored⟩ := hb.loop_run ho hw
  have hsame := hhigh c.layout.flags
  rw [hw] at hsame
  exact ⟨_, hp, h.setBlock hc (hb.storeFlags hstored (and_eq_of_high_eq hsame _ (by decide)))⟩

/-- A retry loop on the flags word of a `__block` record. -/
theorem Represents.loopByref {ρ : Type} {loop : Flags → Attempt Flags ρ} {res : ρ}
    (h : Represents im U r s) (hhigh : ∀ w, high ((loop w).run w).2 = high w)
    (hcount : a ∈ U → ∀ w, refcount w ≠ 0 → refcount ((loop w).run w).2 ≠ 0)
    (hrun : loopByrefFlags a loop s = .ok (res, t)) :
    ∃ u, loopFlags a 16 loop r = .ok (res, u) ∧ Represents im U u t := by
  obtain ⟨c, w, hc, hw, rfl⟩ := loopByrefFlags_inv hrun
  obtain ⟨o, ho, hb⟩ := h.byref a c hc
  obtain ⟨p, hp, hstored⟩ := hb.loop_run ho hw
  have hsame := hhigh c.byref.flags
  rw [hw] at hsame
  refine ⟨_, hp, h.setByref hc (hb.storeFlags hstored hsame fun hu => ?_)⟩
  have hne := hcount hu c.byref.flags (hb.unfinished hu).2
  rwa [hw] at hne

/-! ## `_Block_release` -/

/-- What `_Block_release` needs of the dispose helper.  The block is freed
afterwards, so it is still there when its helper returns. -/
def DisposesLike (im : Image) (raw : List (Nat × Flags) → Addr → RawM Unit)
    (records : Addr → M Unit) : Prop :=
  ∀ r s a c t, Represents im ∅ r s → s.blocks a = some c → records a s = .ok ((), t) →
    t.blocks a ≠ none →
    ∃ u, raw (helperFields 0 c.layout.captured) a r = .ok ((), u) ∧ Represents im ∅ u t

variable {raw : List (Nat × Flags) → Addr → RawM Unit} {records : Addr → M Unit}

theorem callDisposeHelper_run (hhelper : DisposesLike im raw records) (h : Represents im ∅ r s)
    (hrun : BlocksRuntime.blockCallDisposeHelper records a s = .ok ((), t))
    (hthere : t.blocks a ≠ none) :
    ∃ u, blockCallDisposeHelper im raw a r = .ok ((), u) ∧ Represents im ∅ u t := by
  obtain ⟨b, s', hload, hrun⟩ := bind_eq_ok hrun
  obtain ⟨rfl, c, hc, rfl⟩ := loadBlock_inv hload
  obtain ⟨o, ho, hb⟩ := h.block a c hc
  by_cases hhas : c.layout.flags &&& BLOCK_HAS_COPY_DISPOSE = 0
  · rw [BlocksRuntime.blockDescriptor2, if_pos hhas] at hrun
    obtain ⟨_, rfl⟩ := Prod.mk.inj (Except.ok.inj hrun)
    exact ⟨r, hb.disposeHelper_none ho hhas raw, h⟩
  · rw [BlocksRuntime.blockDescriptor2, if_neg hhas] at hrun
    obtain ⟨dispose, s, hword, hcall⟩ := bind_eq_ok hrun
    obtain ⟨rfl, hget⟩ := wordAt_inv hword
    rw [List.getElem?_drop] at hget
    rw [bind_ok (log_apply _ _)] at hcall
    obtain ⟨u, hu, hend⟩ := hhelper _ _ a c t (h.log (.disposeHelper dispose a)) hc hcall hthere
    exact ⟨u, (hb.disposeHelper_run ho hhas hget raw).trans hu, hend⟩

/-- The block is freed with its object. -/
theorem free_run {c : BlockCell} (h : Represents im U r s) (hc : s.blocks a = some c) :
    ∃ u, free (.freeBlock a) a r = .ok ((), u) ∧
      Represents im U u ((s.eraseBlock a).log (.freeBlock a)) := by
  obtain ⟨o, ho, _⟩ := h.block a c hc
  refine ⟨_, ?_, (h.eraseBlock hc).log (.freeBlock a)⟩
  simp only [free, ho, run_log]

theorem freeByref_run {c : ByrefCell} (h : Represents im U r s) (hc : s.byrefs a = some c) :
    ∃ u, free (.freeByref a) a r = .ok ((), u) ∧
      Represents im U u ((s.eraseByref a).log (.freeByref a)) := by
  obtain ⟨o, ho, _⟩ := h.byref a c hc
  refine ⟨_, ?_, (h.eraseByref hc).log (.freeByref a)⟩
  simp only [free, ho, run_log]

theorem releases_blockReleaseBody (hhelper : DisposesLike im raw records) (a : Addr) :
    Releases im (blockReleaseBody im raw a)
      (BlocksRuntime.blockReleaseBody records (fun a => BlocksRuntime.log (.destructInstance a))
        a) := by
  refine Refines.ite (Refines.pure ()) fun r s _ u h hrun hguard => ?_
  obtain ⟨b, s', hload, hrun⟩ := bind_eq_ok hrun
  obtain ⟨rfl, c, hc, rfl⟩ := loadBlock_inv hload
  obtain ⟨o, ho, hb⟩ := h.block a c hc
  rw [run_bind (hb.flags_run ho)]
  by_cases hglobal : c.layout.flags &&& BLOCK_IS_GLOBAL ≠ 0
  · rw [if_pos hglobal] at hrun ⊢
    exact releases_pure () _ _ _ _ h hrun hguard
  rw [if_neg hglobal] at hrun ⊢
  rw [run_bind (hb.flags_run ho)]
  by_cases hfree : c.layout.flags &&& BLOCK_NEEDS_FREE = 0
  · rw [if_pos hfree] at hrun ⊢
    exact releases_pure () _ _ _ _ h hrun hguard
  rw [if_neg hfree] at hrun ⊢
  obtain ⟨verdict, t, hloop, hrun⟩ := bind_eq_ok hrun
  cases verdict with
  | false =>
    obtain ⟨_, rfl⟩ := Prod.mk.inj (Except.ok.inj hrun)
    obtain ⟨w, hw, hend⟩ := h.loopBlock high_decr_run hloop
    exact ⟨w, run_bind hw, hend⟩
  | true =>
    obtain ⟨_, t', hcall, hrun⟩ := bind_eq_ok hrun
    rw [bind_ok (log_apply _ _)] at hrun
    obtain ⟨d, hd, rfl⟩ := freeBlock_inv hrun
    have hthere : t'.blocks a ≠ none := fun hnone => Option.some_ne_none d (hd.symm.trans hnone)
    obtain ⟨w, hw, ht⟩ := h.loopBlock high_decr_run hloop
    obtain ⟨w', hw', ht'⟩ := callDisposeHelper_run hhelper ht hcall hthere
    obtain ⟨v, hv, hend⟩ := free_run (ht'.log (.destructInstance a)) hd
    refine ⟨v, ?_, hend⟩
    rw [run_bind hw]
    show (blockCallDisposeHelper im raw a >>= fun _ => log (.destructInstance a) >>= fun _ =>
      free (.freeBlock a) a) w = _
    rw [run_bind hw', run_bind (run_log _ _)]
    exact hv

/-! ## `_Block_byref_release` -/

/-- What `_Block_byref_release` needs of the function behind `byref_destroy`. -/
def DestroysLike (im : Image) (raw : DestroyCode → Addr → RawM Unit) (records : Addr → M Unit) :
    Prop :=
  ∀ r s a c t, Represents im ∅ r s → s.byrefs a = some c →
    c.byref.flags &&& BLOCK_BYREF_HAS_COPY_DISPOSE ≠ 0 → records a s = .ok ((), t) →
    ∃ h u, c.byref.byref2 = some h ∧ raw (destroyCodeOf h.byrefDestroy) a r = .ok ((), u) ∧
      Represents im ∅ u t

theorem releases_blockByrefReleaseBody {raw : DestroyCode → Addr → RawM Unit}
    {records : Addr → M Unit} (hdestroy : DestroysLike im raw records) (a : Addr) :
    Releases im (blockByrefReleaseBody im raw a)
      (BlocksRuntime.blockByrefReleaseBody records a) := by
  intro r s _ u h hrun hguard
  obtain ⟨b, s', hload, hrun⟩ := bind_eq_ok hrun
  obtain ⟨rfl, c, hc, rfl⟩ := loadByref_inv hload
  obtain ⟨b, s, hload, hrun⟩ := bind_eq_ok hrun
  obtain ⟨rfl, d, hd, rfl⟩ := loadByref_inv hload
  obtain ⟨o, ho, hb⟩ := h.byref a c hc
  obtain ⟨p, hp, hb'⟩ := h.byref c.byref.forwarding d hd
  rw [blockByrefReleaseBody, run_bind (hb.forwarding_run ho), run_bind (hb'.flags_run hp)]
  by_cases hfree : d.byref.flags &&& BLOCK_BYREF_NEEDS_FREE ≠ 0
  swap
  · rw [if_neg hfree] at hrun ⊢
    exact releases_pure () _ _ _ _ h hrun hguard
  rw [if_pos hfree] at hrun ⊢
  rw [run_bind (hb'.flags_run hp)]
  by_cases hcount : d.byref.flags &&& BLOCK_REFCOUNT_MASK = 0
  · -- os_assert fails
    simp only [hcount] at hrun
    rw [if_pos trivial] at hrun
    cases hrun
  simp only [hcount] at hrun ⊢
  rw [if_neg not_false] at hrun ⊢
  obtain ⟨verdict, t, hloop, hrun⟩ := bind_eq_ok hrun
  obtain ⟨w, hw, ht⟩ := h.loopByref high_decr_run (fun hu => absurd hu (Set.notMem_empty _)) hloop
  rw [run_bind hw]
  cases verdict with
  | false => exact releases_pure () _ _ _ _ ht hrun hguard
  | true =>
    obtain ⟨b, t', hload, hrun⟩ := bind_eq_ok hrun
    obtain ⟨rfl, e, he, rfl⟩ := loadByref_inv hload
    obtain ⟨q, hq, hb''⟩ := ht.byref c.byref.forwarding e he
    show ∃ u', (load32 c.byref.forwarding 16 >>= _) w = .ok ((), u') ∧ _
    rw [run_bind (hb''.flags_run hq)]
    by_cases hhas : e.byref.flags &&& BLOCK_BYREF_HAS_COPY_DISPOSE ≠ 0
    · rw [if_pos hhas] at hrun ⊢
      rw [bind_ok (log_apply _ _)] at hrun
      obtain ⟨_, t', hcall, hrun⟩ := bind_eq_ok hrun
      obtain ⟨f, hf, rfl⟩ := freeByref_inv hrun
      obtain ⟨h', v, hh, hv, hend⟩ := hdestroy _ _ _ e _ (ht.log _) he hhas hcall
      obtain ⟨x, hx, hfreed⟩ := freeByref_run hend hf
      refine ⟨x, ?_, hfreed⟩
      rw [run_bind (hb''.helper_run hq hhas 32 (by decide)), run_bind (run_log _ _),
        (hb''.helpers hhas h' hh).destroy, callCode_some, run_bind hv]
      exact hx
    · rw [if_neg hhas] at hrun ⊢
      obtain ⟨f, hf, rfl⟩ := freeByref_inv hrun
      exact freeByref_run ht hf

/-! ## The helpers that dispose -/

section

variable {raw : Addr → Flags → RawM Unit} {records : Addr → Flags → M Unit}
  {rawRelease : Addr → RawM Unit} {release : Addr → M Unit}

/-- The dispose helper from the captured variable `i` on. -/
theorem disposeFields_run (hdispose : ∀ object flags, Releases im (raw object flags)
      (records object flags)) (hdrops : ∀ object flags, Drops (records object flags))
    (xs : List Capture) (i : Nat) (h : Represents im ∅ r s)
    (hrun : disposeFields records xs s = .ok ((), t)) {d : BlockCell} (hd : t.blocks a = some d)
    (hxs : ∀ j x, xs[j]? = some x → d.layout.captured[i + j]? = some x) :
    ∃ u, disposeHelper raw (helperFields i xs) a r = .ok ((), u) ∧ Represents im ∅ u t := by
  induction xs generalizing i r s with
  | nil => exact releases_pure () _ _ _ _ h hrun trivial
  | cons x xs ih =>
    have hrest : ∀ j y, xs[j]? = some y → d.layout.captured[i + 1 + j]? = some y := fun j y hy => by
      rw [Nat.add_right_comm]
      exact hxs (j + 1) y hy
    unfold disposeFields at hrun
    unfold helperFields
    cases hflags : x.kind.flags with
    | none =>
      simp only [hflags] at hrun ⊢
      exact ih (i + 1) h hrun hrest
    | some flags =>
      simp only [hflags] at hrun ⊢
      have hall := Stays.bind dropped_isFrame (hdrops x.value flags)
        fun _ => drops_disposeFields hdrops xs
      obtain ⟨c, hc, hsame, _⟩ := (hall s () t trivial hrun).2.block a d hd
      obtain ⟨_, s', hfirst, hrun⟩ := bind_eq_ok hrun
      obtain ⟨w, hw, hmid⟩ := hdispose _ _ _ _ _ _ h hfirst trivial
      obtain ⟨u, hu, hend⟩ := ih (i + 1) hmid hrun hrest
      refine ⟨u, ?_, hend⟩
      obtain ⟨o, ho, hb⟩ := h.block a c hc
      have hx : c.layout.captured[i]? = some x := hsame ▸ hxs 0 x rfl
      rw [disposeHelper, run_bind (hb.captured_run ho hx), run_bind hw]
      exact hu

theorem disposesLike (hdispose : ∀ object flags, Releases im (raw object flags)
      (records object flags)) (hdrops : ∀ object flags, Drops (records object flags)) :
    DisposesLike im (disposeHelper raw) (BlocksRuntime.disposeHelper records) := by
  intro r s a c t h hc hrun hthere
  obtain ⟨d, hd⟩ := Option.ne_none_iff_exists'.1 hthere
  obtain ⟨b, s', hload, hrun⟩ := bind_eq_ok hrun
  obtain ⟨rfl, c', hc', rfl⟩ := loadBlock_inv hload
  obtain rfl : c = c' := Option.some.inj (hc.symm.trans hc')
  obtain ⟨e, he, hsame, _⟩ := (drops_disposeFields hdrops _ s' () t trivial hrun).2.block a d hd
  obtain rfl : c = e := Option.some.inj (hc.symm.trans he)
  refine disposeFields_run hdispose hdrops _ 0 h hrun hd fun j x hx => ?_
  rw [Nat.zero_add, ← hsame]
  exact hx

theorem destroysLike (hdispose : ∀ object flags, Releases im (raw object flags)
      (records object flags)) (hrelease : ∀ a, Releases im (rawRelease a) (release a)) :
    DestroysLike im (byrefDestroyHelper raw rawRelease)
      (BlocksRuntime.byrefDestroyHelper records release) := by
  intro r s a c t h hc hhas hrun
  obtain ⟨b, s', hload, hrun⟩ := bind_eq_ok hrun
  obtain ⟨rfl, c', hc', rfl⟩ := loadByref_inv hload
  obtain rfl : c = c' := Option.some.inj (hc.symm.trans hc')
  obtain ⟨o, ho, hb⟩ := h.byref a c hc
  cases hh : c.byref.byref2 with
  | none =>
    rw [hh] at hrun
    cases hrun
  | some h' =>
    have hfield := (hb.helpers hhas h' hh).sameField
    rw [hh] at hrun
    cases hcode : h'.byrefDestroy with
    | dispose field flags =>
      rw [hcode] at hfield
      simp only [hcode] at hrun
      obtain ⟨object, s, hword, hcall⟩ := bind_eq_ok hrun
      obtain ⟨rfl, hget⟩ := wordAt_inv hword
      obtain rfl : field = h'.byrefKeep.field := hfield
      obtain ⟨u, hu, hend⟩ := hdispose _ _ _ _ _ _ h hcall trivial
      refine ⟨h', u, rfl, ?_, hend⟩
      rw [hcode]
      show (load64 a (40 + 8 * h'.byrefKeep.field) >>= fun object => raw object flags) r = _
      rw [run_bind (hb.field_run ho hhas (Set.notMem_empty a) hh hget)]
      exact hu
    | release field =>
      rw [hcode] at hfield
      simp only [hcode] at hrun
      obtain ⟨object, s, hword, hcall⟩ := bind_eq_ok hrun
      obtain ⟨rfl, hget⟩ := wordAt_inv hword
      obtain rfl : field = h'.byrefKeep.field := hfield
      obtain ⟨u, hu, hend⟩ := hrelease _ _ _ _ _ h hcall trivial
      refine ⟨h', u, rfl, ?_, hend⟩
      rw [hcode]
      show (load64 a (40 + 8 * h'.byrefKeep.field) >>= fun object => rawRelease object) r = _
      rw [run_bind (hb.field_run ho hhas (Set.notMem_empty a) hh hget)]
      exact hu

end

/-! ## The recursion -/

/-- `_Block_object_dispose`, to any depth. -/
theorem releases_blockObjectDisposeN (im : Image) (n : Nat) (object : Addr) (flags : Flags) :
    Releases im (blockObjectDisposeN im n object flags)
      (BlocksRuntime.blockObjectDisposeN n object flags) := by
  induction n generalizing object flags with
  | zero => exact Refines.of_error fun _ => ⟨_, rfl⟩
  | succ n ih =>
    have hrelease : ∀ a, Releases im (blockReleaseN im n a) (BlocksRuntime.blockReleaseN n a) :=
      releases_blockReleaseBody (disposesLike ih (drops_blockObjectDisposeN n))
    exact Refines.ite (releases_blockByrefReleaseBody (destroysLike ih hrelease) object)
      (Refines.ite (hrelease object) (Refines.ite (releases_log _) (releases_pure ())))

theorem releases_blockReleaseN (im : Image) (n : Nat) (a : Addr) :
    Releases im (blockReleaseN im n a) (BlocksRuntime.blockReleaseN n a) :=
  releases_blockReleaseBody (disposesLike (releases_blockObjectDisposeN im n)
    (drops_blockObjectDisposeN n)) a

end

end BlocksRuntime.Raw
