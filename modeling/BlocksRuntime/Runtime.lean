import BlocksRuntime.Memory

/-!
# The runtime functions

`runtime.cpp`, function by function.  What the C code reaches through a
function pointer (the helpers of a block, the helpers of a `__block` record,
the framework callbacks) is an argument of the function that calls it.

The functions recurse through each other: `_Block_copy` calls the copy helper,
the helper calls `_Block_object_assign`, and that calls `_Block_copy` and
`_Block_byref_copy`.  The recursion is tied once for copying
(`blockObjectAssignN`) and once for releasing (`blockObjectDisposeN`), with a
bound on the depth.  `copyFuel` and `releaseFuel` are bounds that suffice.

* `*dest = ...` of `_Block_object_assign` is the result of
  `blockObjectAssignBody`: `some v` when the call stores `v`, `none` when it
  stores nothing.
* The stores into a fresh record that nothing reads in between are one store
  of the whole record.
-/

namespace BlocksRuntime

/-! ## Descriptors -/

/-- `_Block_descriptor_2`: the descriptor words from
`struct Block_descriptor_2` on, `none` for `NULL`.  The skipped words are the
two of `struct Block_descriptor_1`. -/
def blockDescriptor2 (aBlock : BlockLayout) : Option (List Word) :=
  if aBlock.flags &&& BLOCK_HAS_COPY_DISPOSE = 0 then none
  else some (aBlock.descriptor.drop 2)

/-- `_Block_call_copy_helper`.  `copyHelper` is the code behind
`desc->copy`. -/
def blockCallCopyHelper (copyHelper : Addr → Addr → M Unit) (result aBlock : Addr) : M Unit := do
  let block ← loadBlock aBlock
  match blockDescriptor2 block with
  | none => pure ()
  | some desc => do
    let copy ← wordAt desc 0
    log (.copyHelper copy result)
    copyHelper result aBlock

/-- `_Block_call_dispose_helper`.  `disposeHelper` is the code behind
`desc->dispose`. -/
def blockCallDisposeHelper (disposeHelper : Addr → M Unit) (aBlock : Addr) : M Unit := do
  let block ← loadBlock aBlock
  match blockDescriptor2 block with
  | none => pure ()
  | some desc => do
    let dispose ← wordAt desc 1
    log (.disposeHelper dispose aBlock)
    disposeHelper aBlock

/-! ## Copying -/

/-- `_Block_copy`. -/
def blockCopyBody (env : Env) (copyHelper : Addr → Addr → M Unit) (arg : Addr) : M Addr := do
  if arg = NULL then
    return NULL
  let aBlock ← loadBlock arg
  if aBlock.flags &&& BLOCK_NEEDS_FREE ≠ 0 then
    -- latches on high
    let _ ← loopBlockFlags arg latchingIncrInt
    return arg
  else if aBlock.flags &&& BLOCK_IS_GLOBAL ≠ 0 then
    return arg
  else
    -- Its a stack block.  Make a copy.
    match ← malloc env with
    | none => return NULL
    | some result => do
      log (.mallocBlock arg result)
      let flags := aBlock.flags &&& ~~~(BLOCK_REFCOUNT_MASK ||| BLOCK_DEALLOCATING)
      storeBlock result ⟨.heap, { aBlock with flags := flags ||| (BLOCK_NEEDS_FREE ||| 2) }⟩
      blockCallCopyHelper copyHelper result arg
      -- Set isa last so memory analysis tools see a fully-initialized object.
      updateBlock result fun b => { b with isa := .mallocBlock }
      return result

/-- `_Block_byref_copy`.  `byrefKeep` is the code behind `byref_keep`. -/
def blockByrefCopyBody (env : Env) (byrefKeep : Addr → Addr → M Unit) (arg : Addr) : M Addr := do
  let src ← loadByref arg
  let target ← loadByref src.forwarding
  if target.flags &&& BLOCK_REFCOUNT_MASK = 0 then
    -- src points to stack
    match ← malloc env with
    | none =>
      -- `copy->isa = NULL` through the unchecked result
      fault .nullAccess
    | some copy => do
      log (.mallocByref arg copy)
      -- byref value 4 is logical refcount of 2: one for caller, one for stack
      storeByref copy ⟨.heap, {
        isa := .nil
        forwarding := copy
        flags := src.flags ||| BLOCK_BYREF_NEEDS_FREE ||| 4
        size := src.size
        byref2 := none
        storage := (List.range src.storage.length).map env.junk }⟩
      updateByref arg fun b => { b with forwarding := copy }
      if src.flags &&& BLOCK_BYREF_HAS_COPY_DISPOSE ≠ 0 then
        updateByref copy fun b => { b with byref2 := src.byref2 }
        if src.flags &&& BLOCK_BYREF_LAYOUT_EXTENDED ≠ 0 then
          let layout ← wordAt src.storage 0
          updateByref copy fun b => { b with storage := b.storage.set 0 layout }
        log (.byrefKeep copy)
        byrefKeep copy arg
      else
        -- Bitwise copy.  This copy includes Block_byref_3, if any.
        updateByref copy fun b => { b with byref2 := src.byref2, storage := src.storage }
  else if target.flags &&& BLOCK_BYREF_NEEDS_FREE = BLOCK_BYREF_NEEDS_FREE then
    -- already copied to heap
    let _ ← loopByrefFlags src.forwarding latchingIncrInt
  let src ← loadByref arg
  return src.forwarding

/-- `_Block_object_assign`. -/
def blockObjectAssignBody (retainObject : Addr → M Unit) (blockCopy blockByrefCopy : Addr → M Addr)
    (object : Addr) (flags : Flags) : M (Option Addr) := do
  let kind := flags &&& BLOCK_ALL_COPY_DISPOSE_FLAGS
  if kind = BLOCK_FIELD_IS_OBJECT then
    retainObject object
    return some object
  else if kind = BLOCK_FIELD_IS_BLOCK then
    let copy ← blockCopy object
    return some copy
  else if kind = BLOCK_FIELD_IS_BYREF ||| BLOCK_FIELD_IS_WEAK ∨ kind = BLOCK_FIELD_IS_BYREF then
    let copy ← blockByrefCopy object
    return some copy
  else if kind = BLOCK_BYREF_CALLER ||| BLOCK_FIELD_IS_OBJECT ∨
      kind = BLOCK_BYREF_CALLER ||| BLOCK_FIELD_IS_BLOCK then
    return some object
  else if kind = BLOCK_BYREF_CALLER ||| BLOCK_FIELD_IS_OBJECT ||| BLOCK_FIELD_IS_WEAK ∨
      kind = BLOCK_BYREF_CALLER ||| BLOCK_FIELD_IS_BLOCK ||| BLOCK_FIELD_IS_WEAK then
    return some object
  else
    return none

/-! ## Helpers that copy -/

/-- `*dest = value` for the captured variable `i` of a block. -/
def storeCapture (aBlock : Addr) (i : Nat) (value : Word) : M Unit :=
  updateBlock aBlock fun b =>
    { b with captured := b.captured.modify i fun x => { x with value := value } }

/-- The body of a copy helper, from the captured variable `i` on: one call of
`_Block_object_assign` for each variable that needs help. -/
def copyFields (assign : Addr → Flags → M (Option Addr)) (dst : Addr) :
    Nat → List Capture → M Unit
  | _, [] => pure ()
  | i, x :: xs => do
    match x.kind.flags with
    | none => pure ()
    | some flags => do
      match ← assign x.value flags with
      | none => pure ()
      | some value => storeCapture dst i value
    copyFields assign dst (i + 1) xs

/-- A compiler-generated copy helper. -/
def copyHelper (assign : Addr → Flags → M (Option Addr)) (dst src : Addr) : M Unit := do
  let block ← loadBlock src
  copyFields assign dst 0 block.captured

/-- The function behind `byref_keep` of the record `src`. -/
def byrefKeepHelper (assign : Addr → Flags → M (Option Addr)) (blockCopy : Addr → M Addr)
    (dst src : Addr) : M Unit := do
  let record ← loadByref src
  match record.byref2 with
  | none => fault .wildCall
  | some byref2 =>
    match byref2.byrefKeep with
    | .assign field flags => do
      let object ← wordAt record.storage field
      match ← assign object flags with
      | none => pure ()
      | some value => updateByref dst fun b => { b with storage := b.storage.set field value }
    | .copy field => do
      let object ← wordAt record.storage field
      let value ← blockCopy object
      updateByref dst fun b => { b with storage := b.storage.set field value }

/-- `_Block_object_assign` with at most `n` nested calls. -/
def blockObjectAssignN (env : Env) : Nat → Addr → Flags → M (Option Addr)
  | 0, _, _ => fault .outOfFuel
  | n + 1, object, flags =>
    let blockCopy := blockCopyBody env (copyHelper (blockObjectAssignN env n))
    let blockByrefCopy :=
      blockByrefCopyBody env (byrefKeepHelper (blockObjectAssignN env n) blockCopy)
    blockObjectAssignBody (fun o => log (.retainObject o)) blockCopy blockByrefCopy object flags

def blockCopyN (env : Env) (n : Nat) : Addr → M Addr :=
  blockCopyBody env (copyHelper (blockObjectAssignN env n))

def blockByrefCopyN (env : Env) (n : Nat) : Addr → M Addr :=
  blockByrefCopyBody env (byrefKeepHelper (blockObjectAssignN env n) (blockCopyN env n))

theorem blockObjectAssignN_succ (env : Env) (n : Nat) (object : Addr) (flags : Flags) :
    blockObjectAssignN env (n + 1) object flags =
      blockObjectAssignBody (fun o => log (.retainObject o)) (blockCopyN env n)
        (blockByrefCopyN env n) object flags := rfl

/-! ## Releasing -/

/-- `_Block_release`. -/
def blockReleaseBody (disposeHelper destructInstance : Addr → M Unit) (arg : Addr) : M Unit := do
  if arg = NULL then
    return
  let aBlock ← loadBlock arg
  if aBlock.flags &&& BLOCK_IS_GLOBAL ≠ 0 then
    return
  if aBlock.flags &&& BLOCK_NEEDS_FREE = 0 then
    return
  if ← loopBlockFlags arg latchingDecrIntShouldDeallocate then
    blockCallDisposeHelper disposeHelper arg
    destructInstance arg
    freeBlock arg

/-- `_Block_byref_release`.  `byrefDestroy` is the code behind
`byref_destroy`. -/
def blockByrefReleaseBody (byrefDestroy : Addr → M Unit) (arg : Addr) : M Unit := do
  let record ← loadByref arg
  -- dereference the forwarding pointer
  let byref := record.forwarding
  let target ← loadByref byref
  if target.flags &&& BLOCK_BYREF_NEEDS_FREE ≠ 0 then
    let refcount := target.flags &&& BLOCK_REFCOUNT_MASK
    if refcount = 0 then
      -- os_assert(refcount)
      fault .assertFailed
    if ← loopByrefFlags byref latchingDecrIntShouldDeallocate then
      let target ← loadByref byref
      if target.flags &&& BLOCK_BYREF_HAS_COPY_DISPOSE ≠ 0 then
        log (.byrefDestroy byref)
        byrefDestroy byref
      freeByref byref

/-- `_Block_object_dispose`. -/
def blockObjectDisposeBody (releaseObject blockRelease blockByrefRelease : Addr → M Unit)
    (object : Addr) (flags : Flags) : M Unit := do
  let kind := flags &&& BLOCK_ALL_COPY_DISPOSE_FLAGS
  if kind = BLOCK_FIELD_IS_BYREF ||| BLOCK_FIELD_IS_WEAK ∨ kind = BLOCK_FIELD_IS_BYREF then
    -- get rid of the __block data structure held in a Block
    blockByrefRelease object
  else if kind = BLOCK_FIELD_IS_BLOCK then
    blockRelease object
  else if kind = BLOCK_FIELD_IS_OBJECT then
    releaseObject object
  else
    -- the four BLOCK_BYREF_CALLER combinations and the default
    return

/-! ## Helpers that dispose -/

/-- The body of a dispose helper: one call of `_Block_object_dispose` for each
variable that needs help. -/
def disposeFields (dispose : Addr → Flags → M Unit) : List Capture → M Unit
  | [] => pure ()
  | x :: xs => do
    match x.kind.flags with
    | none => pure ()
    | some flags => dispose x.value flags
    disposeFields dispose xs

/-- A compiler-generated dispose helper. -/
def disposeHelper (dispose : Addr → Flags → M Unit) (aBlock : Addr) : M Unit := do
  let block ← loadBlock aBlock
  disposeFields dispose block.captured

/-- The function behind `byref_destroy` of a record. -/
def byrefDestroyHelper (dispose : Addr → Flags → M Unit) (blockRelease : Addr → M Unit)
    (byref : Addr) : M Unit := do
  let record ← loadByref byref
  match record.byref2 with
  | none => fault .wildCall
  | some byref2 =>
    match byref2.byrefDestroy with
    | .dispose field flags => do
      let object ← wordAt record.storage field
      dispose object flags
    | .release field => do
      let object ← wordAt record.storage field
      blockRelease object

/-- `_Block_object_dispose` with at most `n` nested calls. -/
def blockObjectDisposeN : Nat → Addr → Flags → M Unit
  | 0, _, _ => fault .outOfFuel
  | n + 1, object, flags =>
    let blockRelease :=
      blockReleaseBody (disposeHelper (blockObjectDisposeN n)) fun a => log (.destructInstance a)
    let blockByrefRelease :=
      blockByrefReleaseBody (byrefDestroyHelper (blockObjectDisposeN n) blockRelease)
    blockObjectDisposeBody (fun o => log (.releaseObject o)) blockRelease blockByrefRelease
      object flags

def blockReleaseN (n : Nat) : Addr → M Unit :=
  blockReleaseBody (disposeHelper (blockObjectDisposeN n)) fun a => log (.destructInstance a)

def blockByrefReleaseN (n : Nat) : Addr → M Unit :=
  blockByrefReleaseBody (byrefDestroyHelper (blockObjectDisposeN n) (blockReleaseN n))

theorem blockObjectDisposeN_succ (n : Nat) (object : Addr) (flags : Flags) :
    blockObjectDisposeN (n + 1) object flags =
      blockObjectDisposeBody (fun o => log (.releaseObject o)) (blockReleaseN n)
        (blockByrefReleaseN n) object flags := rfl

/-! ## Entry points -/

/-- A depth that copying does not exceed: a nested call handles a block that
is older than its caller, or comes after a `__block` variable was moved. -/
def copyFuel (s : Mem) : Nat := (s.next + 2) * (s.next + 2)

/-- A depth that releasing does not exceed: a nested call comes after one more
block or `__block` record has got its verdict. -/
def releaseFuel (s : Mem) : Nat := 2 * s.next

/-- `_Block_copy`. -/
def blockCopy (env : Env) (arg : Addr) : M Addr := fun s => blockCopyN env (copyFuel s) arg s

/-- `_Block_object_assign`. -/
def blockObjectAssign (env : Env) (object : Addr) (flags : Flags) : M (Option Addr) :=
  fun s => blockObjectAssignN env (copyFuel s + 1) object flags s

/-- `_Block_release`. -/
def blockRelease (arg : Addr) : M Unit := fun s => blockReleaseN (releaseFuel s) arg s

/-- `_Block_object_dispose`. -/
def blockObjectDispose (object : Addr) (flags : Flags) : M Unit :=
  fun s => blockObjectDisposeN (releaseFuel s + 1) object flags s

/-- `_Block_tryRetain`. -/
def blockTryRetain (arg : Addr) : M Bool := loopBlockFlags arg latchingIncrIntNotDeallocating

/-- `_Block_isDeallocating`. -/
def blockIsDeallocating (arg : Addr) : M Bool := do
  let aBlock ← loadBlock arg
  return decide (aBlock.flags &&& BLOCK_DEALLOCATING ≠ 0)

end BlocksRuntime
