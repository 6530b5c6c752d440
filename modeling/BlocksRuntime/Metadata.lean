import BlocksRuntime.Creation
import BlocksRuntime.MetadataFrame

/-!
# The metadata of a block

The optional parts of a block descriptor are found by pointer arithmetic that
depends on flags, and these flags share a word with the reference count.

* `DescriptorParts` is a descriptor as the compiler means it, `words` what it
  lays out in memory.
* `Carries` says that a block has the metadata of a literal: the descriptor, and
  every flag but the count and `BLOCK_NEEDS_FREE`.
* `Carries.answers` reads every accessor off the parts.  `Carries.copy_eq` and
  `Carries.release_eq` do the same for the two functions that look up helpers.
* `MetadataRun` is a run of calls on the literal and its heap copies, with
  arbitrary helpers.  `metadata_run` is the result for every point of it.
-/

namespace BlocksRuntime

open RetryLoop StateFrame

/-! ## The accessors of `runtime.cpp` -/

/-- `_Block_descriptor_3`, `none` for `NULL`.  The skipped words are those of
`struct Block_descriptor_1` and, if it is there, `struct Block_descriptor_2`. -/
def blockDescriptor3 (aBlock : BlockLayout) : Option (List Word) :=
  if aBlock.flags &&& BLOCK_HAS_SIGNATURE = 0 then none
  else
    let desc := aBlock.descriptor.drop 2
    if aBlock.flags &&& BLOCK_HAS_COPY_DISPOSE ≠ 0 then some (desc.drop 2) else some desc

/-- `Block_size`. -/
def blockSize (aBlock : Addr) : M Word := do
  let layout ← loadBlock aBlock
  wordAt layout.descriptor 1

/-- `_Block_use_stret`. -/
def blockUseStret (aBlock : Addr) : M Bool := do
  let layout ← loadBlock aBlock
  let requiredFlags := BLOCK_HAS_SIGNATURE ||| BLOCK_USE_STRET
  return decide (layout.flags &&& requiredFlags = requiredFlags)

/-- `_Block_signature`. -/
def blockSignature (aBlock : Addr) : M Word := do
  let layout ← loadBlock aBlock
  match blockDescriptor3 layout with
  | none => return NULL
  | some desc3 => wordAt desc3 0

/-- `_Block_has_signature`. -/
def blockHasSignature (aBlock : Addr) : M Bool := do
  let signature ← blockSignature aBlock
  return decide (signature ≠ NULL)

/-- `_Block_layout`. -/
def blockLayout (aBlock : Addr) : M Word := do
  let layout ← loadBlock aBlock
  if layout.flags &&& BLOCK_HAS_EXTENDED_LAYOUT ≠ 0 then
    return NULL
  match blockDescriptor3 layout with
  | none => return NULL
  | some desc3 => wordAt desc3 1

/-- What `_Block_extended_layout` returns: `NULL`, the empty string of the
runtime, or the layout word. -/
inductive ExtendedLayout where
  | null
  | empty
  | layout (word : Word)
  deriving DecidableEq, Repr

/-- `_Block_extended_layout`. -/
def blockExtendedLayout (aBlock : Addr) : M ExtendedLayout := do
  let layout ← loadBlock aBlock
  if layout.flags &&& BLOCK_HAS_EXTENDED_LAYOUT = 0 then
    return .null
  match blockDescriptor3 layout with
  | none => return .null
  | some desc3 => do
    let word ← wordAt desc3 1
    -- Return empty string (all non-object bytes) instead of NULL
    if word = NULL then return .empty else return .layout word

/-! ## Descriptors -/

/-- `struct Block_descriptor_1`, `struct Block_descriptor_2` and
`struct Block_descriptor_3`. -/
structure DescriptorParts where
  reserved : Word
  size : Word
  copy : Word
  dispose : Word
  signature : Word
  layout : Word
  deriving DecidableEq, Repr

/-- The parts that the flags announce, back to back. -/
def DescriptorParts.words (p : DescriptorParts) (w : Flags) : List Word :=
  [p.reserved, p.size] ++
    (if w &&& BLOCK_HAS_COPY_DISPOSE ≠ 0 then [p.copy, p.dispose] else []) ++
    (if w &&& BLOCK_HAS_SIGNATURE ≠ 0 then [p.signature, p.layout] else [])

/-- The accessors, read off the parts. -/
structure Answers (p : DescriptorParts) (w : Flags) (a : Addr) (t : Mem) : Prop where
  size : blockSize a t = .ok (p.size, t)
  useStret : blockUseStret a t =
    .ok (decide (w &&& BLOCK_HAS_SIGNATURE ≠ 0 ∧ w &&& BLOCK_USE_STRET ≠ 0), t)
  signature : blockSignature a t =
    .ok (if w &&& BLOCK_HAS_SIGNATURE ≠ 0 then p.signature else NULL, t)
  hasSignature : blockHasSignature a t =
    .ok (decide (w &&& BLOCK_HAS_SIGNATURE ≠ 0 ∧ p.signature ≠ NULL), t)
  layout : blockLayout a t =
    .ok (if w &&& BLOCK_HAS_SIGNATURE ≠ 0 ∧ w &&& BLOCK_HAS_EXTENDED_LAYOUT = 0 then p.layout
      else NULL, t)
  extendedLayout : blockExtendedLayout a t =
    .ok (if w &&& BLOCK_HAS_SIGNATURE ≠ 0 ∧ w &&& BLOCK_HAS_EXTENDED_LAYOUT ≠ 0 then
        if p.layout = NULL then .empty else .layout p.layout
      else .null, t)

/-- At most one of the two layouts is there. -/
theorem Answers.exclusive {p : DescriptorParts} {w : Flags} {a : Addr} {t : Mem}
    (h : Answers p w a t) :
    (∀ l u, blockLayout a t = .ok (l, u) → l = NULL) ∨
      ∀ e u, blockExtendedLayout a t = .ok (e, u) → e = .null := by
  by_cases hext : w &&& BLOCK_HAS_EXTENDED_LAYOUT = 0
  · refine Or.inr fun e u he => ?_
    rw [h.extendedLayout, if_neg (fun hh => hh.2 hext)] at he
    exact (Prod.mk.inj (Except.ok.inj he)).1.symm
  · refine Or.inl fun l u hl => ?_
    rw [h.layout, if_neg (fun hh => hext hh.2)] at hl
    exact (Prod.mk.inj (Except.ok.inj hl)).1.symm

/-! ## Calls through the parts -/

/-- Call a helper by its function pointer, if the block has one. -/
def callThrough (fn : Option Word) (event : Word → Event) (helper : M Unit) : M Unit :=
  match fn with
  | none => pure ()
  | some fn => do
    log (event fn)
    helper

/-- `_Block_copy` with the lookup of the copy helper taken out. -/
def blockCopyCalling (env : Env) (callCopy : Addr → M Unit) (arg : Addr) : M Addr := do
  if arg = NULL then
    return NULL
  let aBlock ← loadBlock arg
  if aBlock.flags &&& BLOCK_NEEDS_FREE ≠ 0 then
    let _ ← loopBlockFlags arg latchingIncrInt
    return arg
  else if aBlock.flags &&& BLOCK_IS_GLOBAL ≠ 0 then
    return arg
  else
    match ← malloc env with
    | none => return NULL
    | some result => do
      log (.mallocBlock arg result)
      storeBlock result ⟨.heap, { aBlock with flags := heapBlockFlags aBlock.flags }⟩
      callCopy result
      updateBlock result fun b => { b with isa := .mallocBlock }
      return result

/-- `_Block_release` with the lookup of the dispose helper taken out. -/
def blockReleaseCalling (callDispose destructInstance : Addr → M Unit) (arg : Addr) : M Unit := do
  if arg = NULL then
    return
  let aBlock ← loadBlock arg
  if aBlock.flags &&& BLOCK_IS_GLOBAL ≠ 0 then
    return
  if aBlock.flags &&& BLOCK_NEEDS_FREE = 0 then
    return
  if ← loopBlockFlags arg latchingDecrIntShouldDeallocate then
    callDispose arg
    destructInstance arg
    freeBlock arg

theorem blockCopyBody_eq_calling (env : Env) (copyHelper : Addr → Addr → M Unit) (arg : Addr) :
    blockCopyBody env copyHelper arg =
      blockCopyCalling env (fun result => blockCallCopyHelper copyHelper result arg) arg := rfl

theorem blockReleaseBody_eq_calling (disposeHelper destructInstance : Addr → M Unit) (arg : Addr) :
    blockReleaseBody disposeHelper destructInstance arg =
      blockReleaseCalling (blockCallDisposeHelper disposeHelper) destructInstance arg := rfl

/-- The copy helper, if the flags announce one. -/
def DescriptorParts.copyFn (p : DescriptorParts) (w : Flags) : Option Word :=
  if w &&& BLOCK_HAS_COPY_DISPOSE ≠ 0 then some p.copy else none

/-- The dispose helper, if the flags announce one. -/
def DescriptorParts.disposeFn (p : DescriptorParts) (w : Flags) : Option Word :=
  if w &&& BLOCK_HAS_COPY_DISPOSE ≠ 0 then some p.dispose else none

/-- The two functions that look up a helper, with the literal's own helpers. -/
structure CallsOwnHelpers (p : DescriptorParts) (w : Flags) (a : Addr) (t : Mem) : Prop where
  copy : ∀ env copyHelper, blockCopyBody env copyHelper a t =
    blockCopyCalling env (fun result => callThrough (p.copyFn w)
      (fun fn => .copyHelper fn result) (copyHelper result a)) a t
  release : ∀ disposeHelper destructInstance,
    blockReleaseBody disposeHelper destructInstance a t =
      blockReleaseCalling (fun a => callThrough (p.disposeFn w)
        (fun fn => .disposeHelper fn a) (disposeHelper a)) destructInstance a t

/-! ## Carrying metadata -/

/-- Every bit but the count, `BLOCK_DEALLOCATING` and `BLOCK_NEEDS_FREE`. -/
def metadataMask : Flags := ~~~(BLOCK_REFCOUNT_MASK ||| BLOCK_DEALLOCATING ||| BLOCK_NEEDS_FREE)

/-- The block `b` has the metadata of `literal`. -/
structure Carries (literal b : BlockLayout) : Prop where
  descriptor : b.descriptor = literal.descriptor
  flags : b.flags &&& metadataMask = literal.flags &&& metadataMask

theorem Carries.refl (b : BlockLayout) : Carries b b := ⟨rfl, rfl⟩

section Carries

variable {literal b : BlockLayout} {c d : BlockCell} {p : DescriptorParts}

/-- The bits of a mask that leaves the runtime's bits alone. -/
theorem Carries.and (h : Carries literal b) {m : Flags} (hm : metadataMask &&& m = m) :
    b.flags &&& m = literal.flags &&& m := by
  rw [← hm, ← BitVec.and_assoc, ← BitVec.and_assoc, h.flags]

theorem Carries.sameMetadata (h : Carries literal c.layout) (hsame : SameMetadata c d) :
    Carries literal d.layout :=
  ⟨hsame.descriptor.trans h.descriptor,
    (and_eq_of_high_eq hsame.high metadataMask (by decide)).trans h.flags⟩

theorem Carries.halfCopied (h : Carries literal c.layout) :
    Carries literal (halfCopied c).layout :=
  ⟨h.descriptor, (heapBlockFlags_other _ (by decide) (by decide)).trans h.flags⟩

theorem Carries.withFlags (h : Carries literal c.layout) {v : Flags}
    (hv : high v = high c.layout.flags) : Carries literal (c.withFlags v).layout :=
  h.sameMetadata ⟨rfl, hv⟩

/-- The words from `struct Block_descriptor_2` on. -/
theorem Carries.descriptor2 (h : Carries literal b)
    (hdesc : literal.descriptor = p.words literal.flags) :
    blockDescriptor2 b = if literal.flags &&& BLOCK_HAS_COPY_DISPOSE ≠ 0 then
      some ([p.copy, p.dispose] ++ (if literal.flags &&& BLOCK_HAS_SIGNATURE ≠ 0 then
        [p.signature, p.layout] else []))
    else none := by
  rw [blockDescriptor2, h.and (by decide), h.descriptor, hdesc, DescriptorParts.words]
  by_cases hcopy : literal.flags &&& BLOCK_HAS_COPY_DISPOSE = 0
  · rw [if_pos hcopy, if_neg (not_not.2 hcopy)]
  · rw [if_neg hcopy, if_pos hcopy, if_pos hcopy]
    rfl

/-- The words of `struct Block_descriptor_3`. -/
theorem Carries.descriptor3 (h : Carries literal b)
    (hdesc : literal.descriptor = p.words literal.flags) :
    blockDescriptor3 b = if literal.flags &&& BLOCK_HAS_SIGNATURE ≠ 0 then
      some [p.signature, p.layout] else none := by
  rw [blockDescriptor3, h.and (by decide), h.and (m := BLOCK_HAS_COPY_DISPOSE) (by decide),
    h.descriptor, hdesc, DescriptorParts.words]
  by_cases hsig : literal.flags &&& BLOCK_HAS_SIGNATURE = 0
  · rw [if_pos hsig, if_neg (not_not.2 hsig)]
  · rw [if_neg hsig, if_pos hsig, if_pos hsig]
    by_cases hcopy : literal.flags &&& BLOCK_HAS_COPY_DISPOSE = 0
    · rw [if_neg (not_not.2 hcopy), if_neg (not_not.2 hcopy)]
      rfl
    · rw [if_pos hcopy, if_pos hcopy]
      rfl

/-- The test of `_Block_use_stret` asks for both bits. -/
theorem and_requiredFlags_eq_iff (w : Flags) :
    w &&& (BLOCK_HAS_SIGNATURE ||| BLOCK_USE_STRET) = BLOCK_HAS_SIGNATURE ||| BLOCK_USE_STRET ↔
      w &&& BLOCK_HAS_SIGNATURE ≠ 0 ∧ w &&& BLOCK_USE_STRET ≠ 0 := by
  have hsig : w &&& BLOCK_HAS_SIGNATURE = if w.getLsbD 30 then BLOCK_HAS_SIGNATURE else 0 :=
    BitVec.and_twoPow w 30
  have hstret : w &&& BLOCK_USE_STRET = if w.getLsbD 29 then BLOCK_USE_STRET else 0 :=
    BitVec.and_twoPow w 29
  rw [BitVec.and_or_distrib_left, hsig, hstret]
  cases w.getLsbD 30 <;> cases w.getLsbD 29 <;> decide

variable {t : Mem} {a : Addr}

/-- Every accessor of a block with the literal's metadata. -/
theorem Carries.answers (h : Carries literal c.layout) (hc : t.blocks a = some c)
    (hdesc : literal.descriptor = p.words literal.flags) : Answers p literal.flags a t := by
  have hload := loadBlock_ok hc
  have hdesc3 := h.descriptor3 hdesc
  have hextended := h.and (m := BLOCK_HAS_EXTENDED_LAYOUT) (by decide)
  have hsize : c.layout.descriptor[1]? = some p.size := by
    rw [h.descriptor, hdesc]
    rfl
  have hstret : c.layout.flags &&& (BLOCK_HAS_SIGNATURE ||| BLOCK_USE_STRET) =
      literal.flags &&& (BLOCK_HAS_SIGNATURE ||| BLOCK_USE_STRET) := h.and (by decide)
  have hsignature : blockSignature a t =
      .ok (if literal.flags &&& BLOCK_HAS_SIGNATURE ≠ 0 then p.signature else NULL, t) := by
    rw [blockSignature, bind_ok hload, hdesc3]
    by_cases hsig : literal.flags &&& BLOCK_HAS_SIGNATURE ≠ 0
    · rw [if_pos hsig, if_pos hsig]
      rfl
    · rw [if_neg hsig, if_neg hsig]
      rfl
  refine ⟨?_, ?_, hsignature, ?_, ?_, ?_⟩
  · rw [blockSize, bind_ok hload, wordAt_ok hsize]
  · rw [blockUseStret, bind_ok hload]
    simp only [hstret, and_requiredFlags_eq_iff, pure_apply]
  · rw [blockHasSignature, bind_ok hsignature, pure_apply]
    by_cases hsig : literal.flags &&& BLOCK_HAS_SIGNATURE = 0 <;> simp [hsig]
  · rw [blockLayout, bind_ok hload, hdesc3, hextended]
    by_cases hext : literal.flags &&& BLOCK_HAS_EXTENDED_LAYOUT = 0
    · by_cases hsig : literal.flags &&& BLOCK_HAS_SIGNATURE ≠ 0
      · rw [if_neg (not_not.2 hext), if_pos hsig, if_pos ⟨hsig, hext⟩]
        rfl
      · rw [if_neg (not_not.2 hext), if_neg hsig, if_neg (fun hh => hsig hh.1)]
        rfl
    · rw [if_pos hext, if_neg (fun hh => hext hh.2), pure_apply]
  · rw [blockExtendedLayout, bind_ok hload, hdesc3, hextended]
    by_cases hext : literal.flags &&& BLOCK_HAS_EXTENDED_LAYOUT = 0
    · rw [if_pos hext, if_neg (fun hh => hh.2 hext), pure_apply]
    · by_cases hsig : literal.flags &&& BLOCK_HAS_SIGNATURE ≠ 0
      · rw [if_neg hext, if_pos hsig, if_pos ⟨hsig, hext⟩]
        by_cases hlayout : p.layout = NULL
        · rw [if_pos hlayout, hlayout]
          rfl
        · rw [if_neg hlayout]
          show (if p.layout = NULL then pure ExtendedLayout.empty
            else pure (.layout p.layout) : M ExtendedLayout) t = _
          rw [if_neg hlayout, pure_apply]
      · rw [if_neg hext, if_neg hsig, if_neg (fun hh => hsig hh.1)]
        rfl

theorem Carries.callCopyHelper (h : Carries literal c.layout) (hc : t.blocks a = some c)
    (hdesc : literal.descriptor = p.words literal.flags) (copyHelper : Addr → Addr → M Unit)
    (result : Addr) :
    blockCallCopyHelper copyHelper result a t =
      callThrough (p.copyFn literal.flags) (fun fn => .copyHelper fn result)
        (copyHelper result a) t := by
  rw [blockCallCopyHelper, bind_ok (loadBlock_ok hc), h.descriptor2 hdesc, DescriptorParts.copyFn]
  by_cases hcopy : literal.flags &&& BLOCK_HAS_COPY_DISPOSE ≠ 0
  · rw [if_pos hcopy, if_pos hcopy]
    rfl
  · rw [if_neg hcopy, if_neg hcopy]
    rfl

theorem Carries.callDisposeHelper (h : Carries literal c.layout) (hc : t.blocks a = some c)
    (hdesc : literal.descriptor = p.words literal.flags) (disposeHelper : Addr → M Unit) :
    blockCallDisposeHelper disposeHelper a t =
      callThrough (p.disposeFn literal.flags) (fun fn => .disposeHelper fn a)
        (disposeHelper a) t := by
  rw [blockCallDisposeHelper, bind_ok (loadBlock_ok hc), h.descriptor2 hdesc,
    DescriptorParts.disposeFn]
  by_cases hcopy : literal.flags &&& BLOCK_HAS_COPY_DISPOSE ≠ 0
  · rw [if_pos hcopy, if_pos hcopy]
    rfl
  · rw [if_neg hcopy, if_neg hcopy]
    rfl

/-- Two runs with the same first part. -/
theorem bind_congr_first {β γ : Type} {x y : M β} {f : β → M γ} {s : Mem} (h : x s = y s) :
    (x >>= f) s = (y >>= f) s := by
  rw [bind_apply, bind_apply, h]

theorem bind_congr_rest {β γ : Type} {x : M β} {f g : β → M γ} {s : Mem}
    (h : ∀ b u, x s = .ok (b, u) → f b u = g b u) : (x >>= f) s = (x >>= g) s := by
  rw [bind_apply, bind_apply]
  cases hx : x s with
  | error e => rfl
  | ok out => exact h out.1 out.2 hx

/-- `_Block_copy` looks at the block it copies, while the new block is half
done. -/
theorem Carries.copy_eq (h : Carries literal c.layout) (hc : t.blocks a = some c)
    (hlt : a < t.next) (hdesc : literal.descriptor = p.words literal.flags) (env : Env)
    (copyHelper : Addr → Addr → M Unit) :
    blockCopyBody env copyHelper a t =
      blockCopyCalling env (fun result => callThrough (p.copyFn literal.flags)
        (fun fn => .copyHelper fn result) (copyHelper result a)) a t := by
  rw [blockCopyBody_eq_calling, blockCopyCalling, blockCopyCalling]
  split
  · rfl
  rw [bind_ok (loadBlock_ok hc), bind_ok (loadBlock_ok hc)]
  split
  · rfl
  split
  · rfl
  cases hm : env.mallocOk t.mallocs with
  | false => rw [bind_ok (malloc_none hm), bind_ok (malloc_none hm)]
  | true =>
    rw [bind_ok (malloc_ok hm), bind_ok (malloc_ok hm)]
    simp only
    rw [bind_ok (log_apply _ _), bind_ok (log_apply _ _), bind_ok (storeBlock_apply _ _ _),
      bind_ok (storeBlock_apply _ _ _)]
    refine bind_congr_first (h.callCopyHelper ?_ hdesc copyHelper t.next)
    rw [Mem.setBlock_blocks_ne _ _ (Nat.ne_of_lt hlt)]
    exact hc

/-- `_Block_release` looks at the block after it has taken the last reference. -/
theorem Carries.release_eq (h : Carries literal c.layout) (hc : t.blocks a = some c)
    (hdesc : literal.descriptor = p.words literal.flags)
    (disposeHelper destructInstance : Addr → M Unit) :
    blockReleaseBody disposeHelper destructInstance a t =
      blockReleaseCalling (fun a => callThrough (p.disposeFn literal.flags)
        (fun fn => .disposeHelper fn a) (disposeHelper a)) destructInstance a t := by
  rw [blockReleaseBody_eq_calling, blockReleaseCalling, blockReleaseCalling]
  split
  · rfl
  rw [bind_ok (loadBlock_ok hc), bind_ok (loadBlock_ok hc)]
  split
  · rfl
  split
  · rfl
  refine bind_congr_rest fun verdict u hloop => ?_
  rw [loopBlockFlags_ok hc _ rfl] at hloop
  obtain rfl := congrArg Prod.snd (Except.ok.inj hloop)
  cases verdict with
  | false => rfl
  | true =>
    exact bind_congr_first ((h.withFlags (high_decr_run _)).callDisposeHelper
      (Mem.setBlock_blocks_self ..) hdesc disposeHelper)

end Carries

/-! ## Runs -/

/-- The code that the runtime calls back while it works on blocks.  It may do
anything that keeps the metadata of the blocks. -/
structure BlockCallbacks where
  copyHelper : Addr → Addr → M Unit
  disposeHelper : Addr → M Unit
  destructInstance : Addr → M Unit
  copyHelper_keeping : ∀ dst src, Keeping (copyHelper dst src)
  disposeHelper_keeping : ∀ a, Keeping (disposeHelper a)
  destructInstance_keeping : ∀ a, Keeping (destructInstance a)

/-- A run of calls on the blocks `members`, which the copies join. -/
inductive MetadataRun (env : Env) : Mem → List Addr → Mem → List Addr → Prop where
  | start (s : Mem) (members : List Addr) : MetadataRun env s members s members
  | copy {s t u : Mem} {members now : List Addr} {a r : Addr} (callbacks : BlockCallbacks)
      (before : MetadataRun env s members t now) (ha : a ∈ now) (there : t.blocks a ≠ none)
      (call : blockCopyBody env callbacks.copyHelper a t = .ok (r, u)) :
      MetadataRun env s members u (r :: now)
  | release {s t u : Mem} {members now : List Addr} {a : Addr} (callbacks : BlockCallbacks)
      (before : MetadataRun env s members t now) (ha : a ∈ now) (there : t.blocks a ≠ none)
      (call : blockReleaseBody callbacks.disposeHelper callbacks.destructInstance a t =
        .ok ((), u)) :
      MetadataRun env s members u now
  | tryRetain {s t u : Mem} {members now : List Addr} {a : Addr} {r : Bool}
      (before : MetadataRun env s members t now) (ha : a ∈ now) (there : t.blocks a ≠ none)
      (call : blockTryRetain a t = .ok (r, u)) : MetadataRun env s members u now
  | isDeallocating {s t u : Mem} {members now : List Addr} {a : Addr} {r : Bool}
      (before : MetadataRun env s members t now) (ha : a ∈ now) (there : t.blocks a ≠ none)
      (call : blockIsDeallocating a t = .ok (r, u)) : MetadataRun env s members u now

/-- Every member that is still there carries the literal's metadata. -/
structure MembersCarry (literal : BlockLayout) (t : Mem) (members : List Addr) : Prop where
  fresh : Fresh t
  lt : ∀ a ∈ members, a < t.next
  carries : ∀ a ∈ members, ∀ d, t.blocks a = some d → Carries literal d.layout

section Run

variable {env : Env} {s t u : Mem} {members : List Addr} {literal : BlockLayout}

/-- What keeps metadata keeps it for all members. -/
theorem MembersCarry.keeps (h : MembersCarry literal t members) (hu : Fresh u)
    (hk : KeepsMetadata t u) :
    MembersCarry literal u members where
  fresh := hu
  lt a ha := Nat.lt_of_lt_of_le (h.lt a ha) hk.next
  carries a ha d hd := by
    cases hc : t.blocks a with
    | none =>
      rw [hk.gone a (h.lt a ha) hc] at hd
      cases hd
    | some c => exact (h.carries a ha c hc).sameMetadata (hk.blocks a c d hc hd)

theorem MembersCarry.keeping {β : Type} {x : M β} {b : β} (h : MembersCarry literal t members)
    (hx : Keeping x) (hrun : x t = .ok (b, u)) : MembersCarry literal u members := by
  obtain ⟨hu, hk⟩ := hx t b u h.fresh hrun
  exact h.keeps hu hk

/-- The result of `_Block_copy` joins the members. -/
theorem MembersCarry.copy {copyHelper : Addr → Addr → M Unit} {a r : Addr}
    (h : MembersCarry literal t members) (hhelper : ∀ dst src, Keeping (copyHelper dst src))
    (ha : a ∈ members) (hrun : blockCopyBody env copyHelper a t = .ok (r, u)) :
    MembersCarry literal u (r :: members) := by
  obtain ⟨hu, hk, hresult⟩ := blockCopyBody_cases hhelper h.fresh hrun
  have hold := h.keeps hu hk
  have hnew : r < u.next ∧ ∀ d, u.blocks r = some d → Carries literal d.layout := by
    rcases hresult with rfl | rfl | ⟨_, hlt, c, hc, hcarry⟩
    · exact ⟨hold.lt r ha, hold.carries r ha⟩
    · refine ⟨hu.pos, fun d hd => ?_⟩
      rw [hu.null] at hd
      cases hd
    · exact ⟨hlt, fun d hd => (h.carries a ha c hc).halfCopied.sameMetadata (hcarry d hd)⟩
  refine ⟨hu, fun b hb => ?_, fun b hb => ?_⟩
  · rcases List.mem_cons.1 hb with rfl | hb
    · exact hnew.1
    · exact hold.lt b hb
  · rcases List.mem_cons.1 hb with rfl | hb
    · exact hnew.2
    · exact hold.carries b hb

theorem MetadataRun.carry {now : List Addr} (hrun : MetadataRun env s members t now)
    (h : MembersCarry literal s members) : MembersCarry literal t now := by
  induction hrun with
  | start => exact h
  | copy callbacks _ ha _ call ih => exact (ih h).copy callbacks.copyHelper_keeping ha call
  | release callbacks _ _ _ call ih =>
    exact (ih h).keeping (blockReleaseBody_keeping callbacks.disposeHelper_keeping
      callbacks.destructInstance_keeping _) call
  | tryRetain _ _ _ call ih => exact (ih h).keeping (keeping_loopBlockFlags high_tryIncr_run) call
  | isDeallocating _ _ _ call ih =>
    exact (ih h).keeping ((keeping_loadBlock _).bind fun _ => keeping_pure _) call

/-- At every point of every run, every block that is still there answers like
the fresh literal, from the literal's own descriptor parts. -/
theorem metadata_run {a : Addr} {storage : Storage} {p : DescriptorParts} (hs : Fresh s)
    (hliteral : s.blocks a = some ⟨storage, literal⟩)
    (hdesc : literal.descriptor = p.words literal.flags)
    (hrun : MetadataRun env s [a] t members) {b : Addr} (hb : b ∈ members)
    (hthere : t.blocks b ≠ none) :
    Answers p literal.flags b t ∧ CallsOwnHelpers p literal.flags b t ∧
      ((∀ l u, blockLayout b t = .ok (l, u) → l = NULL) ∨
        ∀ e u, blockExtendedLayout b t = .ok (e, u) → e = .null) := by
  have hstart : MembersCarry literal s [a] := by
    refine ⟨hs, fun b hb => ?_, fun b hb d hd => ?_⟩
    · rw [List.mem_singleton.1 hb]
      exact hs.lt hliteral
    · rw [List.mem_singleton.1 hb, hliteral, Option.some.injEq] at hd
      exact hd ▸ Carries.refl literal
  have hend := hrun.carry hstart
  obtain ⟨c, hc⟩ := Option.ne_none_iff_exists'.1 hthere
  have hcarries := hend.carries b hb c hc
  have hanswers := hcarries.answers hc hdesc
  exact ⟨hanswers, ⟨hcarries.copy_eq hc (hend.lt b hb) hdesc, hcarries.release_eq hc hdesc⟩,
    hanswers.exclusive⟩

end Run

/-! ## A literal with all parts -/

/-- The generated helpers, and a callback that only gets logged. -/
def generatedCallbacks (env : Env) (n : Nat) : BlockCallbacks where
  copyHelper := copyHelper (blockObjectAssignN env n)
  disposeHelper := disposeHelper (blockObjectDisposeN n)
  destructInstance a := log (.destructInstance a)
  copyHelper_keeping :=
    have hframe := keepsMetadata_copying env
    hframe.copyHelper_stays (hframe.blockObjectAssignN_stays n)
  disposeHelper_keeping := disposeHelper_keeping (blockObjectDisposeN_keeping n)
  destructInstance_keeping _ := keeping_log _

def signedParts : DescriptorParts where
  reserved := 0
  size := 40
  copy := 401
  dispose := 402
  signature := 403
  layout := 0x100

/-- A block that captures an object, with low bits that mean nothing on the
stack. -/
def signedLiteral : BlockLayout where
  isa := .stackBlock
  flags := BLOCK_HAS_COPY_DISPOSE ||| BLOCK_HAS_SIGNATURE ||| BLOCK_HAS_EXTENDED_LAYOUT ||| 0x7005
  reserved := 0
  invoke := 400
  descriptor := [0, 40, 401, 402, 403, 0x100]
  captured := [⟨.object, 50⟩]

def signedOnly : Mem := Mem.empty.newBlock ⟨.stack, signedLiteral⟩

theorem signedOnly_fresh : Fresh signedOnly where
  pos := by decide
  null := rfl
  beyond a ha := by
    have hne : a ≠ 1 := Nat.ne_of_gt (Nat.lt_of_lt_of_le (by decide) ha)
    exact Mem.newBlock_ne Mem.empty _ hne

/-- The literal is copied, and the copy is copied again and released once. -/
theorem metadata_run_signed :
    ∃ t members, MetadataRun plentiful signedOnly [1] t members ∧ 2 ∈ members ∧
      Answers signedParts signedLiteral.flags 2 t ∧
      CallsOwnHelpers signedParts signedLiteral.flags 2 t := by
  let callbacks := generatedCallbacks plentiful 1
  have hrun := ((@MetadataRun.start plentiful signedOnly [1]).copy callbacks
    (a := 1) (by simp) (by decide) rfl).copy callbacks (a := 2) (by decide) (by decide) rfl
    |>.release callbacks (a := 2) (by decide) (by decide) rfl
  obtain ⟨hanswers, hcalls, _⟩ := metadata_run (p := signedParts) signedOnly_fresh rfl rfl hrun
    (b := 2) (by decide) (by decide)
  exact ⟨_, _, hrun, by decide, hanswers, hcalls⟩

end BlocksRuntime
