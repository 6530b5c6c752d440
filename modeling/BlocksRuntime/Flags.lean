import BlocksRuntime.RetryLoop.Basic
import Mathlib.Data.Nat.Bitwise
import Mathlib.Tactic.SplitIfs

/-!
# The flags word

Blocks and `__block` records carry their reference count in a 32-bit flags
word.  Bit 0 is `BLOCK_DEALLOCATING`, bits 1 to 15 are the count, and the high
half belongs to the compiler, except `BLOCK_NEEDS_FREE`.

The three `latching` functions of `runtime.cpp` are retry loops on that word.
Each is written here as the decision of one pass of its loop.

A word is read through three views: `refcount`, `isDeallocating` and `high`.
Every function gets one lemma that says what it does to the three, and no
proof outside this module looks at a bit.
-/

namespace BlocksRuntime

open RetryLoop

/-- `volatile int32_t flags`. -/
abbrev Flags := BitVec 32

/-! ## The constants of `Block_private.h` -/

def BLOCK_DEALLOCATING : Flags := 0x0001
def BLOCK_REFCOUNT_MASK : Flags := 0xfffe
def BLOCK_NEEDS_FREE : Flags := 1 <<< 24
def BLOCK_HAS_COPY_DISPOSE : Flags := 1 <<< 25
def BLOCK_IS_GLOBAL : Flags := 1 <<< 28
def BLOCK_USE_STRET : Flags := 1 <<< 29
def BLOCK_HAS_SIGNATURE : Flags := 1 <<< 30
def BLOCK_HAS_EXTENDED_LAYOUT : Flags := 1 <<< 31

def BLOCK_BYREF_LAYOUT_MASK : Flags := 0xf <<< 28
def BLOCK_BYREF_LAYOUT_EXTENDED : Flags := 1 <<< 28
def BLOCK_BYREF_LAYOUT_STRONG : Flags := 3 <<< 28
def BLOCK_BYREF_HAS_COPY_DISPOSE : Flags := 1 <<< 25
def BLOCK_BYREF_NEEDS_FREE : Flags := 1 <<< 24

def BLOCK_FIELD_IS_OBJECT : Flags := 3
def BLOCK_FIELD_IS_BLOCK : Flags := 7
def BLOCK_FIELD_IS_BYREF : Flags := 8
def BLOCK_FIELD_IS_WEAK : Flags := 16
def BLOCK_BYREF_CALLER : Flags := 128

def BLOCK_ALL_COPY_DISPOSE_FLAGS : Flags :=
  BLOCK_FIELD_IS_OBJECT ||| BLOCK_FIELD_IS_BLOCK ||| BLOCK_FIELD_IS_BYREF |||
    BLOCK_FIELD_IS_WEAK ||| BLOCK_BYREF_CALLER

/-! ## The three loops -/

/-- One pass of `latching_incr_int`. -/
def latchingIncrInt (oldValue : Flags) : Attempt Flags Flags :=
  if oldValue &&& BLOCK_REFCOUNT_MASK = BLOCK_REFCOUNT_MASK then
    .exit BLOCK_REFCOUNT_MASK
  else
    .cas (oldValue + 2) (oldValue + 2)

/-- One pass of `latching_incr_int_not_deallocating`. -/
def latchingIncrIntNotDeallocating (oldValue : Flags) : Attempt Flags Bool :=
  if oldValue &&& BLOCK_DEALLOCATING ≠ 0 then
    -- if deallocating we can't do this
    .exit false
  else if oldValue &&& BLOCK_REFCOUNT_MASK = BLOCK_REFCOUNT_MASK then
    -- if latched, we're leaking this block, and we succeed
    .exit true
  else
    .cas (oldValue + 2) true

/-- One pass of `latching_decr_int_should_deallocate`. -/
def latchingDecrIntShouldDeallocate (oldValue : Flags) : Attempt Flags Bool :=
  if oldValue &&& BLOCK_REFCOUNT_MASK = BLOCK_REFCOUNT_MASK then
    .exit false -- latched high
  else if oldValue &&& BLOCK_REFCOUNT_MASK = 0 then
    .exit false -- underflow, latch low
  else if oldValue &&& (BLOCK_REFCOUNT_MASK ||| BLOCK_DEALLOCATING) = 2 then
    .cas (oldValue - 1) true
  else
    .cas (oldValue - 2) false

/-! ## Reading a word -/

/-- The count at which a word latches. -/
def latched : Nat := 0x7fff

/-- The logical reference count, bits 1 to 15. -/
def refcount (w : Flags) : Nat := w.toNat / 2 % 2 ^ 15

/-- Bit 0. -/
def isDeallocating (w : Flags) : Bool := w.toNat % 2 = 1

/-- Bits 16 to 31. -/
def high (w : Flags) : Nat := w.toNat / 2 ^ 16

theorem refcount_le (w : Flags) : refcount w ≤ latched := by
  unfold refcount latched
  omega

/-- The three views determine the word. -/
theorem flags_ext {v w : Flags} (hc : refcount v = refcount w)
    (hd : isDeallocating v = isDeallocating w) (hh : high v = high w) : v = w := by
  apply BitVec.eq_of_toNat_eq
  unfold refcount at hc
  unfold isDeallocating at hd
  unfold high at hh
  rw [decide_eq_decide] at hd
  omega

theorem toNat_and_refcount_mask (w : Flags) :
    (w &&& BLOCK_REFCOUNT_MASK).toNat = 2 * refcount w := by
  unfold refcount
  rw [BitVec.toNat_and, show BLOCK_REFCOUNT_MASK.toNat = 2 * (2 ^ 15 - 1) from rfl]
  apply Nat.eq_of_testBit_eq
  intro i
  cases i with
  | zero => simp
  | succ i =>
    rw [Nat.testBit_and, Nat.testBit_succ, Nat.testBit_succ (2 * (2 ^ 15 - 1)),
      Nat.testBit_succ (2 * _), Nat.mul_div_cancel_left _ (by decide),
      Nat.mul_div_cancel_left _ (by decide), Nat.testBit_two_pow_sub_one,
      Nat.testBit_mod_two_pow, Bool.and_comm]

/-- `(w & BLOCK_REFCOUNT_MASK) == BLOCK_REFCOUNT_MASK` is the latch test. -/
theorem and_refcount_mask_eq_mask (w : Flags) :
    w &&& BLOCK_REFCOUNT_MASK = BLOCK_REFCOUNT_MASK ↔ refcount w = latched := by
  rw [← BitVec.toNat_inj, toNat_and_refcount_mask,
    show BLOCK_REFCOUNT_MASK.toNat = 2 * latched from rfl]
  omega

theorem and_refcount_mask_eq_zero (w : Flags) :
    w &&& BLOCK_REFCOUNT_MASK = 0 ↔ refcount w = 0 := by
  rw [← BitVec.toNat_inj, toNat_and_refcount_mask, show (0 : Flags).toNat = 0 from rfl]
  omega

theorem and_deallocating_ne_zero (w : Flags) :
    w &&& BLOCK_DEALLOCATING ≠ 0 ↔ isDeallocating w = true := by
  unfold isDeallocating
  rw [ne_eq, ← BitVec.toNat_inj, BitVec.toNat_and,
    show BLOCK_DEALLOCATING.toNat = 1 from rfl, show (0 : Flags).toNat = 0 from rfl,
    Nat.and_one_is_mod, decide_eq_true_iff]
  omega

/-- The verdict test: count one and not deallocating. -/
theorem and_low_half_eq_two (w : Flags) :
    w &&& (BLOCK_REFCOUNT_MASK ||| BLOCK_DEALLOCATING) = 2 ↔
      refcount w = 1 ∧ isDeallocating w = false := by
  unfold refcount isDeallocating
  rw [← BitVec.toNat_inj, BitVec.toNat_and,
    show (BLOCK_REFCOUNT_MASK ||| BLOCK_DEALLOCATING).toNat = 2 ^ 16 - 1 from rfl,
    Nat.and_two_pow_sub_one_eq_mod, show (2 : Flags).toNat = 2 from rfl,
    decide_eq_false_iff_not]
  omega

/-- A mask without low bits sees the high half only. -/
theorem and_eq_of_high_eq {v w : Flags} (h : high v = high w) (m : Flags)
    (hm : m.toNat % 2 ^ 16 = 0) : v &&& m = w &&& m := by
  apply BitVec.eq_of_toNat_eq
  rw [BitVec.toNat_and, BitVec.toNat_and]
  apply Nat.eq_of_testBit_eq
  intro i
  rw [Nat.testBit_and, Nat.testBit_and]
  by_cases hi : i < 16
  · have hz : m.toNat.testBit i = false := by
      have := Nat.testBit_mod_two_pow m.toNat 16 i
      rw [hm, Nat.zero_testBit] at this
      simpa [hi] using this.symm
    rw [hz, Bool.and_false, Bool.and_false]
  · have hshift : ∀ u : Flags, u.toNat.testBit i = (high u).testBit (i - 16) := fun u => by
      unfold high
      rw [Nat.testBit_div_two_pow]
      congr 1
      omega
    rw [hshift v, hshift w, h]

/-- The two ways in which the code tests `BLOCK_BYREF_NEEDS_FREE`. -/
theorem and_needsFree_eq {w : Flags} (h : w &&& BLOCK_BYREF_NEEDS_FREE ≠ 0) :
    w &&& BLOCK_BYREF_NEEDS_FREE = BLOCK_BYREF_NEEDS_FREE := by
  have hnat : (w &&& BLOCK_BYREF_NEEDS_FREE).toNat = (w.toNat.testBit 24).toNat * 2 ^ 24 := by
    rw [BitVec.toNat_and, show BLOCK_BYREF_NEEDS_FREE.toNat = 2 ^ 24 from rfl, Nat.and_two_pow]
  cases hbit : w.toNat.testBit 24 with
  | true =>
    apply BitVec.eq_of_toNat_eq
    rw [hnat, hbit]
    rfl
  | false =>
    refine absurd (BitVec.eq_of_toNat_eq ?_) h
    rw [hnat, hbit]
    rfl

/-! ## What the loops do to the three views -/

/-- Two words that differ in the count only. -/
structure SameMeta (v w : Flags) : Prop where
  high : high v = high w
  dealloc : isDeallocating v = isDeallocating w

theorem SameMeta.refl (w : Flags) : SameMeta w w := ⟨rfl, rfl⟩

theorem SameMeta.symm {v w : Flags} (h : SameMeta v w) : SameMeta w v :=
  ⟨h.high.symm, h.dealloc.symm⟩

theorem SameMeta.trans {u v w : Flags} (h₁ : SameMeta u v) (h₂ : SameMeta v w) : SameMeta u w :=
  ⟨h₁.high.trans h₂.high, h₁.dealloc.trans h₂.dealloc⟩

/-- Adding 2 below the latch raises the count and nothing else. -/
theorem add_two_views {w : Flags} (h : refcount w ≠ latched) :
    refcount (w + 2) = refcount w + 1 ∧ SameMeta (w + 2) w := by
  have hlt := w.isLt
  have hadd : (w + 2).toNat = w.toNat + 2 := by
    unfold refcount latched at h
    rw [BitVec.toNat_add, show (2 : Flags).toNat = 2 from rfl]
    omega
  unfold refcount latched at h
  refine ⟨?_, ⟨?_, ?_⟩⟩
  · unfold refcount
    rw [hadd]
    omega
  · unfold high
    rw [hadd]
    omega
  · unfold isDeallocating
    rw [hadd, decide_eq_decide]
    omega

/-- Subtracting 2 above zero lowers the count and nothing else. -/
theorem sub_two_views {w : Flags} (h : refcount w ≠ 0) :
    refcount (w - 2) = refcount w - 1 ∧ SameMeta (w - 2) w := by
  have hsub : (w - 2).toNat = w.toNat - 2 := by
    unfold refcount at h
    have := w.isLt
    rw [BitVec.toNat_sub, show (2 : Flags).toNat = 2 from rfl]
    omega
  unfold refcount at h
  refine ⟨?_, ⟨?_, ?_⟩⟩
  · unfold refcount
    rw [hsub]
    omega
  · unfold high
    rw [hsub]
    omega
  · unfold isDeallocating
    rw [hsub, decide_eq_decide]
    omega

/-- Subtracting 1 from a word with count one trades the count for the
deallocating bit. -/
theorem sub_one_views {w : Flags} (h : refcount w = 1) (hd : isDeallocating w = false) :
    refcount (w - 1) = 0 ∧ isDeallocating (w - 1) = true ∧ high (w - 1) = high w := by
  unfold refcount at h
  unfold isDeallocating at hd
  rw [decide_eq_false_iff_not] at hd
  have hsub : (w - 1).toNat = w.toNat - 1 := by
    have := w.isLt
    rw [BitVec.toNat_sub, show (1 : Flags).toNat = 1 from rfl]
    omega
  refine ⟨?_, ?_, ?_⟩
  · unfold refcount
    rw [hsub]
    omega
  · unfold isDeallocating
    rw [hsub, decide_eq_true_iff]
    omega
  · unfold high
    rw [hsub]
    omega

/-! ## Undisturbed runs of the loops -/

theorem incr_run_latched {w : Flags} (h : refcount w = latched) :
    (latchingIncrInt w).run w = (BLOCK_REFCOUNT_MASK, w) := by
  rw [latchingIncrInt, if_pos ((and_refcount_mask_eq_mask w).2 h), Attempt.run_exit]

theorem incr_run {w : Flags} (h : refcount w ≠ latched) :
    (latchingIncrInt w).run w = (w + 2, w + 2) := by
  rw [latchingIncrInt, if_neg (fun he => h ((and_refcount_mask_eq_mask w).1 he)),
    Attempt.run_cas]

/-- An increment raises the count by one, up to the latch, and leaves the rest
of the word alone. -/
theorem incr_run_views (w : Flags) :
    ∃ r v, (latchingIncrInt w).run w = (r, v) ∧ refcount v = min latched (refcount w + 1) ∧
      SameMeta v w := by
  have hle := refcount_le w
  by_cases h : refcount w = latched
  · exact ⟨_, _, incr_run_latched h, by omega, SameMeta.refl w⟩
  · obtain ⟨hc, hm⟩ := add_two_views h
    exact ⟨_, _, incr_run h, by omega, hm⟩

theorem tryIncr_run {w : Flags} (hd : isDeallocating w = false) :
    ∃ v, (latchingIncrIntNotDeallocating w).run w = (true, v) ∧
      refcount v = min latched (refcount w + 1) ∧ SameMeta v w := by
  have hd' : ¬(w &&& BLOCK_DEALLOCATING ≠ 0) := fun he => by
    rw [and_deallocating_ne_zero, hd] at he
    cases he
  have hle := refcount_le w
  by_cases h : refcount w = latched
  · refine ⟨w, ?_, by omega, SameMeta.refl w⟩
    rw [latchingIncrIntNotDeallocating, if_neg hd', if_pos ((and_refcount_mask_eq_mask w).2 h),
      Attempt.run_exit]
  · obtain ⟨hc, hm⟩ := add_two_views h
    refine ⟨w + 2, ?_, by omega, hm⟩
    rw [latchingIncrIntNotDeallocating, if_neg hd',
      if_neg (fun he => h ((and_refcount_mask_eq_mask w).1 he)), Attempt.run_cas]

theorem tryIncr_run_deallocating {w : Flags} (hd : isDeallocating w = true) :
    (latchingIncrIntNotDeallocating w).run w = (false, w) := by
  rw [latchingIncrIntNotDeallocating, if_pos ((and_deallocating_ne_zero w).2 hd), Attempt.run_exit]

theorem decr_run_latched {w : Flags} (h : refcount w = latched) :
    (latchingDecrIntShouldDeallocate w).run w = (false, w) := by
  rw [latchingDecrIntShouldDeallocate, if_pos ((and_refcount_mask_eq_mask w).2 h),
    Attempt.run_exit]

/-- The last reference: the verdict. -/
theorem decr_run_last {w : Flags} (h : refcount w = 1) (hd : isDeallocating w = false) :
    (latchingDecrIntShouldDeallocate w).run w = (true, w - 1) := by
  have hl : refcount w ≠ latched := by
    rw [h]
    decide
  have h0 : refcount w ≠ 0 := by omega
  rw [latchingDecrIntShouldDeallocate,
    if_neg (fun he => hl ((and_refcount_mask_eq_mask w).1 he)),
    if_neg (fun he => h0 ((and_refcount_mask_eq_zero w).1 he)),
    if_pos ((and_low_half_eq_two w).2 ⟨h, hd⟩), Attempt.run_cas]

theorem decr_run_zero {w : Flags} (h : refcount w = 0) :
    (latchingDecrIntShouldDeallocate w).run w = (false, w) := by
  have hl : refcount w ≠ latched := by
    rw [h]
    decide
  rw [latchingDecrIntShouldDeallocate,
    if_neg (fun he => hl ((and_refcount_mask_eq_mask w).1 he)),
    if_pos ((and_refcount_mask_eq_zero w).2 h), Attempt.run_exit]

/-- Any other reference. -/
theorem decr_run_other {w : Flags} (hl : refcount w ≠ latched) (h0 : refcount w ≠ 0)
    (h : ¬(refcount w = 1 ∧ isDeallocating w = false)) :
    (latchingDecrIntShouldDeallocate w).run w = (false, w - 2) := by
  rw [latchingDecrIntShouldDeallocate,
    if_neg (fun he => hl ((and_refcount_mask_eq_mask w).1 he)),
    if_neg (fun he => h0 ((and_refcount_mask_eq_zero w).1 he)),
    if_neg (fun he => h ((and_low_half_eq_two w).1 he)), Attempt.run_cas]

theorem decr_run_shared {w : Flags} (hl : refcount w ≠ latched) (h : 1 < refcount w) :
    (latchingDecrIntShouldDeallocate w).run w = (false, w - 2) :=
  decr_run_other hl (by omega) fun he => absurd he.1 (by omega)

/-- A release gives the verdict on a word with count one and without the
deallocating bit.  On any other word it changes at most the count. -/
theorem decr_run_cases (w : Flags) :
    (refcount w = 1 ∧ isDeallocating w = false ∧
      (latchingDecrIntShouldDeallocate w).run w = (true, w - 1)) ∨
    ∃ v, (latchingDecrIntShouldDeallocate w).run w = (false, v) ∧ SameMeta v w := by
  by_cases hlast : refcount w = 1 ∧ isDeallocating w = false
  · exact Or.inl ⟨hlast.1, hlast.2, decr_run_last hlast.1 hlast.2⟩
  · refine Or.inr ?_
    by_cases hl : refcount w = latched
    · exact ⟨w, decr_run_latched hl, SameMeta.refl w⟩
    · by_cases h0 : refcount w = 0
      · exact ⟨w, decr_run_zero h0, SameMeta.refl w⟩
      · exact ⟨w - 2, decr_run_other hl h0 hlast, (sub_two_views h0).2⟩

/-! ## The decisions of one pass -/

theorem incr_exit {w r : Flags} (h : latchingIncrInt w = .exit r) : refcount w = latched := by
  unfold latchingIncrInt at h
  split at h
  · next hl => exact (and_refcount_mask_eq_mask w).1 hl
  · cases h

theorem incr_cas {w new r : Flags} (h : latchingIncrInt w = .cas new r) :
    refcount new = refcount w + 1 ∧ refcount w ≠ latched ∧ SameMeta new w := by
  unfold latchingIncrInt at h
  split at h
  · cases h
  · next hl =>
    have hl' : refcount w ≠ latched := fun he => hl ((and_refcount_mask_eq_mask w).2 he)
    rw [Attempt.cas.injEq] at h
    obtain ⟨hc, hm⟩ := add_two_views hl'
    exact ⟨h.1 ▸ hc, hl', h.1 ▸ hm⟩

theorem tryIncr_exit {w : Flags} {r : Bool} (h : latchingIncrIntNotDeallocating w = .exit r) :
    (r = false ∧ isDeallocating w = true) ∨
      (r = true ∧ isDeallocating w = false ∧ refcount w = latched) := by
  unfold latchingIncrIntNotDeallocating at h
  split at h
  · next hd =>
    rw [Attempt.exit.injEq] at h
    exact Or.inl ⟨h.symm, (and_deallocating_ne_zero w).1 hd⟩
  · next hd =>
    split at h
    · next hl =>
      rw [Attempt.exit.injEq] at h
      exact Or.inr ⟨h.symm, Bool.eq_false_iff.2 fun he => hd ((and_deallocating_ne_zero w).2 he),
        (and_refcount_mask_eq_mask w).1 hl⟩
    · cases h

theorem tryIncr_cas {w new : Flags} {r : Bool}
    (h : latchingIncrIntNotDeallocating w = .cas new r) :
    r = true ∧ isDeallocating w = false ∧ refcount new = refcount w + 1 ∧
      refcount w ≠ latched ∧ SameMeta new w := by
  unfold latchingIncrIntNotDeallocating at h
  split at h
  · cases h
  · next hd =>
    split at h
    · cases h
    · next hl =>
      have hl' : refcount w ≠ latched := fun he => hl ((and_refcount_mask_eq_mask w).2 he)
      rw [Attempt.cas.injEq] at h
      obtain ⟨hc, hm⟩ := add_two_views hl'
      exact ⟨h.2.symm, Bool.eq_false_iff.2 fun he => hd ((and_deallocating_ne_zero w).2 he),
        h.1 ▸ hc, hl', h.1 ▸ hm⟩

theorem decr_exit {w : Flags} {r : Bool} (h : latchingDecrIntShouldDeallocate w = .exit r) :
    r = false ∧ (refcount w = latched ∨ refcount w = 0) := by
  unfold latchingDecrIntShouldDeallocate at h
  split at h
  · next hl =>
    rw [Attempt.exit.injEq] at h
    exact ⟨h.symm, Or.inl ((and_refcount_mask_eq_mask w).1 hl)⟩
  · split at h
    · next h0 =>
      rw [Attempt.exit.injEq] at h
      exact ⟨h.symm, Or.inr ((and_refcount_mask_eq_zero w).1 h0)⟩
    · split at h <;> cases h

theorem decr_cas {w new : Flags} {r : Bool}
    (h : latchingDecrIntShouldDeallocate w = .cas new r) :
    refcount w ≠ latched ∧
      ((r = true ∧ refcount w = 1 ∧ isDeallocating w = false ∧ refcount new = 0 ∧
          isDeallocating new = true ∧ high new = high w) ∨
        (r = false ∧ refcount w = refcount new + 1 ∧
          ¬(refcount w = 1 ∧ isDeallocating w = false) ∧ SameMeta new w)) := by
  unfold latchingDecrIntShouldDeallocate at h
  split at h
  · cases h
  next hl =>
  have hl' : refcount w ≠ latched := fun he => hl ((and_refcount_mask_eq_mask w).2 he)
  refine ⟨hl', ?_⟩
  split at h
  · cases h
  next h0 =>
  have h0' : refcount w ≠ 0 := fun he => h0 ((and_refcount_mask_eq_zero w).2 he)
  split at h
  · next h1 =>
    obtain ⟨hone, hlive⟩ := (and_low_half_eq_two w).1 h1
    rw [Attempt.cas.injEq] at h
    obtain ⟨rfl, rfl⟩ := h
    exact Or.inl ⟨rfl, hone, hlive, sub_one_views hone hlive⟩
  · next h1 =>
    rw [Attempt.cas.injEq] at h
    obtain ⟨rfl, rfl⟩ := h
    obtain ⟨hc, hm⟩ := sub_two_views h0'
    exact Or.inr ⟨rfl, by omega, fun he => h1 ((and_low_half_eq_two w).2 he), hm⟩

/-! ## Fresh words -/

/-- The flags of a fresh heap block. -/
def heapBlockFlags (w : Flags) : Flags :=
  w &&& ~~~(BLOCK_REFCOUNT_MASK ||| BLOCK_DEALLOCATING) ||| (BLOCK_NEEDS_FREE ||| 2)

/-- The flags of a fresh heap copy of a `__block` record. -/
def heapByrefFlags (w : Flags) : Flags := w ||| BLOCK_BYREF_NEEDS_FREE ||| 4

theorem refcount_of_and {w v : Flags} (h : w &&& BLOCK_REFCOUNT_MASK = v) :
    2 * refcount w = v.toNat := by
  rw [← toNat_and_refcount_mask, h]

theorem isDeallocating_eq_false_iff {w : Flags} :
    isDeallocating w = false ↔ w &&& BLOCK_DEALLOCATING = 0 := by
  have h := and_deallocating_ne_zero w
  cases hd : isDeallocating w <;> simp_all

/-- The bits of a fresh word under a mask. -/
theorem heapBlockFlags_and (w m : Flags) :
    heapBlockFlags w &&& m =
      w &&& (~~~(BLOCK_REFCOUNT_MASK ||| BLOCK_DEALLOCATING) &&& m) |||
        (BLOCK_NEEDS_FREE ||| 2) &&& m := by
  rw [heapBlockFlags, BitVec.and_or_distrib_right, BitVec.and_assoc]

theorem heapByrefFlags_and (w m : Flags) :
    heapByrefFlags w &&& m = w &&& m ||| (BLOCK_BYREF_NEEDS_FREE ||| 4) &&& m := by
  rw [heapByrefFlags, BitVec.or_assoc, BitVec.and_or_distrib_right]

theorem heapBlockFlags_refcount (w : Flags) : refcount (heapBlockFlags w) = 1 := by
  have hand : heapBlockFlags w &&& BLOCK_REFCOUNT_MASK = 2 := by
    rw [heapBlockFlags_and,
      show ~~~(BLOCK_REFCOUNT_MASK ||| BLOCK_DEALLOCATING) &&& BLOCK_REFCOUNT_MASK = 0 by decide,
      show (BLOCK_NEEDS_FREE ||| 2) &&& BLOCK_REFCOUNT_MASK = 2 by decide]
    simp
  have h := refcount_of_and hand
  rw [show (2 : Flags).toNat = 2 from rfl] at h
  omega

theorem heapBlockFlags_isDeallocating (w : Flags) : isDeallocating (heapBlockFlags w) = false := by
  rw [isDeallocating_eq_false_iff, heapBlockFlags_and,
    show ~~~(BLOCK_REFCOUNT_MASK ||| BLOCK_DEALLOCATING) &&& BLOCK_DEALLOCATING = 0 by decide,
    show (BLOCK_NEEDS_FREE ||| 2) &&& BLOCK_DEALLOCATING = 0 by decide]
  simp

theorem heapBlockFlags_needsFree (w : Flags) : heapBlockFlags w &&& BLOCK_NEEDS_FREE ≠ 0 := by
  rw [heapBlockFlags_and,
    show (BLOCK_NEEDS_FREE ||| 2) &&& BLOCK_NEEDS_FREE = BLOCK_NEEDS_FREE by decide]
  intro h
  have hbit := congrArg (fun v : Flags => v.getLsbD 24) h
  rw [BitVec.getLsbD_or, show BLOCK_NEEDS_FREE.getLsbD 24 = true by decide, Bool.or_true] at hbit
  cases hbit

/-- The flags of the compiler other than `BLOCK_NEEDS_FREE` survive. -/
theorem heapBlockFlags_other (w : Flags) {m : Flags}
    (hlow : ~~~(BLOCK_REFCOUNT_MASK ||| BLOCK_DEALLOCATING) &&& m = m)
    (hfree : (BLOCK_NEEDS_FREE ||| 2) &&& m = 0) : heapBlockFlags w &&& m = w &&& m := by
  rw [heapBlockFlags_and, hlow, hfree]
  simp

theorem heapByrefFlags_refcount {w : Flags} (h : refcount w = 0) :
    refcount (heapByrefFlags w) = 2 := by
  have hand : heapByrefFlags w &&& BLOCK_REFCOUNT_MASK = 4 := by
    rw [heapByrefFlags_and, (and_refcount_mask_eq_zero w).2 h,
      show (BLOCK_BYREF_NEEDS_FREE ||| 4) &&& BLOCK_REFCOUNT_MASK = 4 by decide]
    simp
  have h := refcount_of_and hand
  rw [show (4 : Flags).toNat = 4 from rfl] at h
  omega

/-- Unlike the flags of a heap block, these keep the deallocating bit. -/
theorem heapByrefFlags_dealloc (w : Flags) :
    isDeallocating (heapByrefFlags w) = isDeallocating w := by
  have hbit : heapByrefFlags w &&& BLOCK_DEALLOCATING = w &&& BLOCK_DEALLOCATING := by
    rw [heapByrefFlags_and,
      show (BLOCK_BYREF_NEEDS_FREE ||| 4) &&& BLOCK_DEALLOCATING = 0 by decide]
    simp
  rw [Bool.eq_iff_iff, ← and_deallocating_ne_zero, ← and_deallocating_ne_zero, hbit]

theorem heapByrefFlags_isDeallocating {w : Flags} (h : isDeallocating w = false) :
    isDeallocating (heapByrefFlags w) = false := (heapByrefFlags_dealloc w).trans h

theorem heapByrefFlags_needsFree (w : Flags) :
    heapByrefFlags w &&& BLOCK_BYREF_NEEDS_FREE ≠ 0 := by
  rw [heapByrefFlags_and,
    show (BLOCK_BYREF_NEEDS_FREE ||| 4) &&& BLOCK_BYREF_NEEDS_FREE =
      BLOCK_BYREF_NEEDS_FREE by decide]
  intro h
  have hbit := congrArg (fun v : Flags => v.getLsbD 24) h
  rw [BitVec.getLsbD_or, show BLOCK_BYREF_NEEDS_FREE.getLsbD 24 = true by decide,
    Bool.or_true] at hbit
  cases hbit

theorem heapByrefFlags_other (w : Flags) {m : Flags}
    (hm : (BLOCK_BYREF_NEEDS_FREE ||| 4) &&& m = 0) : heapByrefFlags w &&& m = w &&& m := by
  rw [heapByrefFlags_and, hm]
  simp

end BlocksRuntime
