import BlocksRuntime.Runtime
import BlocksRuntime.StateFrame

/-!
# Frames of copying

The functions that copy, to any depth and with any helpers, as programs built
from a few steps.

* `CopyingFrame` lists the steps: a frame in the sense of `StateFrame.IsFrame`
  along which each of them goes.
* `blockCopyBody_stays` and `blockByrefCopyBody_stays` are the two functions that
  allocate, with helpers that stay in the frame themselves.
* `blockObjectAssignN_stays` ties the recursion.
-/

namespace BlocksRuntime

open RetryLoop StateFrame

/-- The new heap block of `_Block_copy`, before its helper runs. -/
def halfCopied (c : BlockCell) : BlockCell :=
  ⟨.heap, { c.layout with flags := heapBlockFlags c.layout.flags }⟩

/-- The memory with the new heap block of `_Block_copy`. -/
def Mem.halfCopy (s : Mem) (a : Addr) (c : BlockCell) : Mem :=
  (({ s with next := s.next + 1, mallocs := s.mallocs + 1 } : Mem).log
    (.mallocBlock a s.next)).setBlock s.next (halfCopied c)

/-- The new heap record of `_Block_byref_copy`, with its header only. -/
def blankRecord (env : Env) (src : BlockByref) (copy : Addr) : ByrefCell :=
  ⟨.heap, {
    isa := .nil
    forwarding := copy
    flags := heapByrefFlags src.flags
    size := src.size
    byref2 := none
    storage := (List.range src.storage.length).map env.junk }⟩

/-- The memory with the new heap record of `_Block_byref_copy`, before the
forwarding pointer is set. -/
def Mem.blankCopy (env : Env) (s : Mem) (v : Addr) (c : ByrefCell) : Mem :=
  (({ s with next := s.next + 1, mallocs := s.mallocs + 1 } : Mem).log
    (.mallocByref v s.next)).setByref s.next (blankRecord env c.byref s.next)

/-- A frame along which every step of copying goes. -/
structure CopyingFrame (env : Env) (P : Mem → Prop) (R : Mem → Mem → Prop) : Prop where
  isFrame : IsFrame P R
  log : ∀ e, Stays P R (log e)
  noMemory : ∀ s, P s → P { s with mallocs := s.mallocs + 1 } ∧
    R s { s with mallocs := s.mallocs + 1 }
  newBlock : ∀ s a c, P s → s.blocks a = some c → P (s.halfCopy a c) ∧ R s (s.halfCopy a c)
  updateBlock : ∀ a f, (∀ b, (f b).descriptor = b.descriptor ∧ (f b).flags = b.flags) →
    Stays P R (updateBlock a f)
  incrBlock : ∀ a, Stays P R (loopBlockFlags a latchingIncrInt)
  /-- The record and its forwarding pointer.  The count behind the old pointer is
  zero. -/
  newByref : ∀ s v c d, P s → s.byrefs v = some c → s.byrefs c.byref.forwarding = some d →
    refcount d.byref.flags = 0 → ∀ t,
    updateByref v (fun b => { b with forwarding := s.next }) (s.blankCopy env v c) = .ok ((), t) →
    P t ∧ R s t
  updateByref : ∀ a f, (∀ b, (f b).forwarding = b.forwarding ∧ (f b).flags = b.flags) →
    Stays P R (updateByref a f)
  incrByref : ∀ a, Stays P R (loopByrefFlags a latchingIncrInt)

namespace CopyingFrame

variable {env : Env} {P : Mem → Prop} {R : Mem → Mem → Prop} {β γ : Type}
  {copyHelper byrefKeep : Addr → Addr → M Unit}

section

variable (h : CopyingFrame env P R)

include h

theorem pure (b : β) : Stays P R (Pure.pure b : M β) := Stays.pure h.isFrame b

theorem bind {x : M β} {f : β → M γ} (hx : Stays P R x) (hf : ∀ b, Stays P R (f b)) :
    Stays P R (x >>= f) :=
  Stays.bind h.isFrame hx hf

omit h in
theorem fault (e : Fault) : Stays P R (fault e : M β) := Stays.of_error fun _ => ⟨e, rfl⟩

theorem wordAt (words : List Word) (i : Nat) : Stays P R (wordAt words i) := by
  unfold BlocksRuntime.wordAt
  split
  · exact h.pure _
  · exact fault _

theorem loadBlock (a : Addr) : Stays P R (loadBlock a) := by
  intro s b t hs hrun
  obtain ⟨rfl, _⟩ := loadBlock_inv hrun
  exact ⟨hs, h.isFrame.refl t hs⟩

theorem loadByref (a : Addr) : Stays P R (loadByref a) := by
  intro s b t hs hrun
  obtain ⟨rfl, _⟩ := loadByref_inv hrun
  exact ⟨hs, h.isFrame.refl t hs⟩

/-! ## The two functions that allocate -/

theorem blockCallCopyHelper_stays (hhelper : ∀ dst src, Stays P R (copyHelper dst src))
    (result aBlock : Addr) : Stays P R (blockCallCopyHelper copyHelper result aBlock) := by
  refine h.bind (h.loadBlock aBlock) fun b => ?_
  split
  · exact h.pure ()
  · exact h.bind (h.wordAt _ _) fun _ => h.bind (h.log _) fun _ => hhelper result aBlock

/-- The end of `_Block_copy`, once the new block has its flags. -/
theorem finishCopy_stays (hhelper : ∀ dst src, Stays P R (copyHelper dst src))
    (result aBlock : Addr) :
    Stays P R (do
      blockCallCopyHelper copyHelper result aBlock
      BlocksRuntime.updateBlock result fun b => { b with isa := .mallocBlock }
      return result) :=
  h.bind (h.blockCallCopyHelper_stays hhelper result aBlock) fun _ =>
    h.bind (h.updateBlock _ _ fun _ => ⟨rfl, rfl⟩) fun _ => h.pure _

theorem blockCopyBody_stays (hhelper : ∀ dst src, Stays P R (copyHelper dst src)) (a : Addr) :
    Stays P R (blockCopyBody env copyHelper a) := by
  refine Stays.ite (h.pure _) fun s r u hs hrun => ?_
  obtain ⟨b, s', hload, hrun⟩ := bind_eq_ok hrun
  obtain ⟨rfl, c, hc, rfl⟩ := loadBlock_inv hload
  split at hrun
  · exact h.bind (h.incrBlock a) (fun _ => h.pure a) s' r u hs hrun
  split at hrun
  · exact h.pure a s' r u hs hrun
  cases hm : env.mallocOk s'.mallocs with
  | false =>
    rw [bind_ok (malloc_none hm)] at hrun
    exact (h.pure NULL).after h.isFrame hs (h.noMemory s' hs) hrun
  | true =>
    rw [bind_ok (malloc_ok hm)] at hrun
    simp only at hrun
    rw [bind_ok (log_apply _ _), bind_ok (storeBlock_apply _ _ _)] at hrun
    exact (h.finishCopy_stays hhelper s'.next a).after h.isFrame hs (h.newBlock s' a c hs hc) hrun

/-- The end of `_Block_byref_copy`, once the forwarding pointer is set. -/
theorem finishByrefCopy_stays (hkeep : ∀ dst src, Stays P R (byrefKeep dst src))
    (src : BlockByref) (copy a : Addr) :
    Stays P R (do
      if src.flags &&& BLOCK_BYREF_HAS_COPY_DISPOSE ≠ 0 then
        BlocksRuntime.updateByref copy fun b => { b with byref2 := src.byref2 }
        if src.flags &&& BLOCK_BYREF_LAYOUT_EXTENDED ≠ 0 then
          let layout ← BlocksRuntime.wordAt src.storage 0
          BlocksRuntime.updateByref copy fun b => { b with storage := b.storage.set 0 layout }
        BlocksRuntime.log (.byrefKeep copy)
        byrefKeep copy a
      else
        BlocksRuntime.updateByref copy fun b =>
          { b with byref2 := src.byref2, storage := src.storage }
      let src ← BlocksRuntime.loadByref a
      return src.forwarding : M Addr) := by
  have hreturn : Stays P R (do
      let src ← BlocksRuntime.loadByref a
      return src.forwarding : M Addr) := h.bind (h.loadByref a) fun _ => h.pure _
  have hupdate : ∀ f, (∀ b : BlockByref, (f b).forwarding = b.forwarding ∧ (f b).flags = b.flags) →
      Stays P R (BlocksRuntime.updateByref copy f) := h.updateByref copy
  have hcall : Stays P R (do
      BlocksRuntime.log (.byrefKeep copy)
      byrefKeep copy a
      let src ← BlocksRuntime.loadByref a
      return src.forwarding : M Addr) :=
    h.bind (h.log _) fun _ => h.bind (hkeep copy a) fun _ => hreturn
  refine Stays.ite ?_ (h.bind (hupdate _ fun _ => ⟨rfl, rfl⟩) fun _ => hreturn)
  refine h.bind (hupdate _ fun _ => ⟨rfl, rfl⟩) fun _ => Stays.ite ?_ hcall
  exact h.bind (h.wordAt _ _) fun _ => h.bind (hupdate _ fun _ => ⟨rfl, rfl⟩) fun _ => hcall

theorem blockByrefCopyBody_stays (hkeep : ∀ dst src, Stays P R (byrefKeep dst src)) (a : Addr) :
    Stays P R (blockByrefCopyBody env byrefKeep a) := by
  intro s r u hs hrun
  obtain ⟨b, s', hload, hrun⟩ := bind_eq_ok hrun
  obtain ⟨rfl, c, hc, rfl⟩ := loadByref_inv hload
  obtain ⟨b, s, hload, hrun⟩ := bind_eq_ok hrun
  obtain ⟨rfl, d, hd, rfl⟩ := loadByref_inv hload
  have hreturn : Stays P R (do
      let src ← BlocksRuntime.loadByref a
      return src.forwarding : M Addr) := h.bind (h.loadByref a) fun _ => h.pure _
  split at hrun
  · next hzero =>
    have hcount := (and_refcount_mask_eq_zero d.byref.flags).1 hzero
    cases hm : env.mallocOk s.mallocs with
    | false =>
      rw [bind_ok (malloc_none hm)] at hrun
      cases hrun
    | true =>
      rw [bind_ok (malloc_ok hm)] at hrun
      simp only at hrun
      rw [bind_ok (log_apply _ _), bind_ok (storeByref_apply _ _ _)] at hrun
      obtain ⟨_, t, hforward, hrun⟩ := bind_eq_ok hrun
      have hmid := h.newByref s a c d hs hc hd hcount t hforward
      exact (h.finishByrefCopy_stays hkeep c.byref s.next a).after h.isFrame hs hmid hrun
  · exact Stays.ite (h.bind (h.incrByref _) fun _ => hreturn) hreturn s r u hs hrun

/-! ## The functions around them -/

theorem blockObjectAssignBody_stays {retainObject : Addr → M Unit}
    {blockCopy blockByrefCopy : Addr → M Addr} (hretain : ∀ o, Stays P R (retainObject o))
    (hblock : ∀ a, Stays P R (blockCopy a)) (hbyref : ∀ a, Stays P R (blockByrefCopy a))
    (object : Addr) (flags : Flags) :
    Stays P R (blockObjectAssignBody retainObject blockCopy blockByrefCopy object flags) := by
  refine Stays.ite ?_ (Stays.ite ?_ (Stays.ite ?_ (Stays.ite ?_ (Stays.ite ?_ ?_))))
  · exact h.bind (hretain object) fun _ => h.pure _
  · exact h.bind (hblock object) fun _ => h.pure _
  · exact h.bind (hbyref object) fun _ => h.pure _
  · exact h.pure _
  · exact h.pure _
  · exact h.pure _

theorem copyFields_stays {assign : Addr → Flags → M (Option Addr)}
    (hassign : ∀ object flags, Stays P R (assign object flags)) (dst i : Nat)
    (xs : List Capture) : Stays P R (copyFields assign dst i xs) := by
  induction xs generalizing i with
  | nil => exact h.pure ()
  | cons x xs ih =>
    unfold copyFields
    split
    · exact h.bind (h.pure ()) fun _ => ih (i + 1)
    · refine h.bind (hassign _ _) fun value => ?_
      split
      · exact h.bind (h.pure ()) fun _ => ih (i + 1)
      · exact h.bind (h.updateBlock _ _ fun _ => ⟨rfl, rfl⟩) fun _ => ih (i + 1)

theorem copyHelper_stays {assign : Addr → Flags → M (Option Addr)}
    (hassign : ∀ object flags, Stays P R (assign object flags)) (dst src : Addr) :
    Stays P R (BlocksRuntime.copyHelper assign dst src) :=
  h.bind (h.loadBlock src) fun _ => h.copyFields_stays hassign dst 0 _

theorem byrefKeepHelper_stays {assign : Addr → Flags → M (Option Addr)}
    {blockCopy : Addr → M Addr} (hassign : ∀ object flags, Stays P R (assign object flags))
    (hblock : ∀ a, Stays P R (blockCopy a)) (dst src : Addr) :
    Stays P R (byrefKeepHelper assign blockCopy dst src) := by
  have hstore : ∀ field value, Stays P R (BlocksRuntime.updateByref dst fun b =>
      { b with storage := b.storage.set field value }) :=
    fun _ _ => h.updateByref _ _ fun _ => ⟨rfl, rfl⟩
  refine h.bind (h.loadByref src) fun record => ?_
  split
  · exact fault _
  · split
    · refine h.bind (h.wordAt _ _) fun _ => h.bind (hassign _ _) fun value => ?_
      split
      · exact h.pure ()
      · exact hstore _ _
    · exact h.bind (h.wordAt _ _) fun _ => h.bind (hblock _) fun _ => hstore _ _

/-- `_Block_object_assign`, to any depth. -/
theorem blockObjectAssignN_stays (n : Nat) (object : Addr) (flags : Flags) :
    Stays P R (blockObjectAssignN env n object flags) := by
  induction n generalizing object flags with
  | zero => exact fault _
  | succ n ih =>
    have hblock : ∀ a, Stays P R (blockCopyN env n a) :=
      h.blockCopyBody_stays (h.copyHelper_stays ih)
    exact h.blockObjectAssignBody_stays (fun _ => h.log _) hblock
      (h.blockByrefCopyBody_stays (h.byrefKeepHelper_stays ih hblock)) object flags

theorem blockCopyN_stays (n : Nat) (a : Addr) : Stays P R (blockCopyN env n a) :=
  h.blockCopyBody_stays (h.copyHelper_stays (h.blockObjectAssignN_stays n)) a

end

end CopyingFrame

end BlocksRuntime
