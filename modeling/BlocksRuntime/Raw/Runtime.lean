import BlocksRuntime.ByteMemory.Basic
import BlocksRuntime.Metadata

/-!
# The runtime on bytes

The functions of `runtime.cpp` once more, with memory objects made of bytes.
Every field is read and written at its offset when the source does so, and an
access outside of its object faults.

* `Image` is what the compiler and the linker have laid down: class objects,
  descriptors, and the helper behind each function pointer.
* `struct Block_layout` has `isa` at 0, `flags` at 8, `reserved` at 12,
  `invoke` at 16, `descriptor` at 24, and the captured variables from 32 on.
* `struct Block_byref` has `isa` at 0, `forwarding` at 8, `flags` at 16 and
  `size` at 20.  `struct Block_byref_2` follows at 24 and
  `struct Block_byref_3` at 40.
* The three descriptor structures have two words each, back to back.
-/

namespace BlocksRuntime.Raw

open RetryLoop ByteMemory

/-! ## Code and static data -/

/-- The code behind `byref_keep`, with the offset of the one field. -/
inductive KeepCode where
  | assign (off : Nat) (flags : Flags)
  | copy (off : Nat)
  deriving DecidableEq, Repr

/-- The code behind `byref_destroy`. -/
inductive DestroyCode where
  | dispose (off : Nat) (flags : Flags)
  | release (off : Nat)
  deriving DecidableEq, Repr

/-- What a program consists of.  The helpers of blocks make one call for each
field on their list, at its offset and with its flags. -/
structure Image where
  isa : Isa → Word
  isa_nil : isa .nil = NULL
  isa_lt : ∀ i, isa i < 256 ^ 8
  data : Addr → Option Object
  copyCode : Word → Option (List (Nat × Flags))
  disposeCode : Word → Option (List (Nat × Flags))
  keepCode : Word → Option KeepCode
  destroyCode : Word → Option DestroyCode

/-! ## Memory -/

/-- The objects by their addresses, with what the allocator has done. -/
structure RawMem where
  objects : Addr → Option Object
  next : Addr
  mallocs : Nat
  trace : List Event

/-- The memory of a program before it creates anything. -/
def RawMem.empty : RawMem where
  objects _ := none
  next := 1
  mallocs := 0
  trace := []

def RawMem.setObject (r : RawMem) (a : Addr) (o : Object) : RawMem :=
  { r with objects := Function.update r.objects a (some o) }

def RawMem.erase (r : RawMem) (a : Addr) : RawMem :=
  { r with objects := Function.update r.objects a none }

/-- An object at a fresh address. -/
def RawMem.create (r : RawMem) (o : Object) : RawMem :=
  { r.setObject r.next o with next := r.next + 1 }

/-- Which calls of `malloc` succeed, and the bytes that each returns. -/
structure RawEnv where
  mallocOk : Nat → Bool
  junk : Nat → Nat → UInt8

abbrev RawM := StateT RawMem (Except Fault)

def fault {β : Type} (e : Fault) : RawM β := fun _ => .error e

def log (e : Event) : RawM Unit := fun r => .ok ((), { r with trace := r.trace ++ [e] })

/-- The number in `n` bytes of an object. -/
def load (n : Nat) (a : Addr) (off : Nat) : RawM Nat := fun r =>
  match r.objects a with
  | none => .error (badAddr a)
  | some o =>
    match o.load n off with
    | none => .error .outOfBounds
    | some value => .ok (value, r)

def store (n : Nat) (a : Addr) (off value : Nat) : RawM Unit := fun r =>
  match r.objects a with
  | none => .error (badAddr a)
  | some o =>
    match o.store n off value with
    | none => .error .outOfBounds
    | some p => .ok ((), r.setObject a p)

def memmove (dst : Addr) (doff : Nat) (src : Addr) (soff n : Nat) : RawM Unit := fun r =>
  match r.objects dst, r.objects src with
  | some o, some p =>
    match o.blit doff p soff n with
    | none => .error .outOfBounds
    | some q => .ok ((), r.setObject dst q)
  | none, _ => .error (badAddr dst)
  | some _, none => .error (badAddr src)

def load64 (a : Addr) (off : Nat) : RawM Word := load 8 a off

def store64 (a : Addr) (off : Nat) (value : Word) : RawM Unit := store 8 a off value

def load32 (a : Addr) (off : Nat) : RawM Flags := do
  let value ← load 4 a off
  return BitVec.ofNat 32 value

def store32 (a : Addr) (off : Nat) (value : Flags) : RawM Unit := store 4 a off value.toNat

/-- One of the retry loops on a flags word. -/
def loopFlags {ρ : Type} (a : Addr) (off : Nat) (loop : Flags → Attempt Flags ρ) : RawM ρ := do
  let oldValue ← load32 a off
  match loop oldValue with
  | .exit result => return result
  | .cas newValue result => do
    store32 a off newValue
    return result

def malloc (env : RawEnv) (size : Nat) : RawM Addr := fun r =>
  if env.mallocOk r.mallocs then
    .ok (r.next, { r.setObject r.next ⟨size, env.junk r.mallocs⟩ with
      next := r.next + 1, mallocs := r.mallocs + 1 })
  else
    .ok (NULL, { r with mallocs := r.mallocs + 1 })

/-- `free`, with the event for what is freed. -/
def free (e : Event) (a : Addr) : RawM Unit := fun r =>
  match r.objects a with
  | none => .error (badAddr a)
  | some _ => log e (r.erase a)

/-- A word of the static data. -/
def dataWord (im : Image) (a : Addr) (off : Nat) : RawM Word :=
  match im.data a with
  | none => fault (badAddr a)
  | some o =>
    match o.load 8 off with
    | none => fault .outOfBounds
    | some value => pure value

/-- Call the code behind a function pointer. -/
def callCode {κ : Type} (code : Option κ) (f : κ → RawM Unit) : RawM Unit :=
  match code with
  | none => fault .wildCall
  | some code => f code

@[simp] theorem callCode_some {κ : Type} (code : κ) (f : κ → RawM Unit) :
    callCode (some code) f = f code := rfl

/-! ## Descriptors -/

/-- `_Block_descriptor_2`: an object and an offset, or `NULL`. -/
def blockDescriptor2 (aBlock : Addr) : RawM (Option (Addr × Nat)) := do
  let flags ← load32 aBlock 8
  if flags &&& BLOCK_HAS_COPY_DISPOSE = 0 then
    return none
  let desc ← load64 aBlock 24
  -- desc += sizeof(struct Block_descriptor_1)
  return some (desc, 16)

/-- `_Block_descriptor_3`. -/
def blockDescriptor3 (aBlock : Addr) : RawM (Option (Addr × Nat)) := do
  let flags ← load32 aBlock 8
  if flags &&& BLOCK_HAS_SIGNATURE = 0 then
    return none
  let desc ← load64 aBlock 24
  -- desc += sizeof(struct Block_descriptor_1)
  let flags ← load32 aBlock 8
  if flags &&& BLOCK_HAS_COPY_DISPOSE ≠ 0 then
    -- desc += sizeof(struct Block_descriptor_2)
    return some (desc, 16 + 16)
  return some (desc, 16)

/-- `_Block_call_copy_helper`. -/
def blockCallCopyHelper (im : Image) (copyHelper : List (Nat × Flags) → Addr → Addr → RawM Unit)
    (result aBlock : Addr) : RawM Unit := do
  match ← blockDescriptor2 aBlock with
  | none => pure ()
  | some desc => do
    let copy ← dataWord im desc.1 desc.2
    log (.copyHelper copy result)
    callCode (im.copyCode copy) fun fields => copyHelper fields result aBlock

/-- `_Block_call_dispose_helper`. -/
def blockCallDisposeHelper (im : Image) (disposeHelper : List (Nat × Flags) → Addr → RawM Unit)
    (aBlock : Addr) : RawM Unit := do
  match ← blockDescriptor2 aBlock with
  | none => pure ()
  | some desc => do
    let dispose ← dataWord im desc.1 (desc.2 + 8)
    log (.disposeHelper dispose aBlock)
    callCode (im.disposeCode dispose) fun fields => disposeHelper fields aBlock

/-! ## Copying -/

/-- `_Block_copy`. -/
def blockCopyBody (im : Image) (env : RawEnv)
    (copyHelper : List (Nat × Flags) → Addr → Addr → RawM Unit) (arg : Addr) : RawM Addr := do
  if arg = NULL then
    return NULL
  let flags ← load32 arg 8
  if flags &&& BLOCK_NEEDS_FREE ≠ 0 then
    -- latches on high
    let _ ← loopFlags arg 8 latchingIncrInt
    return arg
  let flags ← load32 arg 8
  if flags &&& BLOCK_IS_GLOBAL ≠ 0 then
    return arg
  -- Its a stack block.  Make a copy.
  let desc ← load64 arg 24
  let size ← dataWord im desc 8
  let result ← malloc env size
  if result = NULL then
    return NULL
  log (.mallocBlock arg result)
  let desc ← load64 arg 24
  let size ← dataWord im desc 8
  -- bitcopy first
  memmove result 0 arg 0 size
  -- reset refcount
  let flags ← load32 result 8
  store32 result 8 (flags &&& ~~~(BLOCK_REFCOUNT_MASK ||| BLOCK_DEALLOCATING))
  let flags ← load32 result 8
  store32 result 8 (flags ||| (BLOCK_NEEDS_FREE ||| 2))
  blockCallCopyHelper im copyHelper result arg
  -- Set isa last so memory analysis tools see a fully-initialized object.
  store64 result 0 (im.isa .mallocBlock)
  return result

/-- `_Block_byref_copy`. -/
def blockByrefCopyBody (im : Image) (env : RawEnv) (byrefKeep : KeepCode → Addr → Addr → RawM Unit)
    (arg : Addr) : RawM Addr := do
  let forwarding ← load64 arg 8
  let flags ← load32 forwarding 16
  if flags &&& BLOCK_REFCOUNT_MASK = 0 then
    -- src points to stack
    let size ← load32 arg 20
    let copy ← malloc env size.toNat
    log (.mallocByref arg copy)
    store64 copy 0 NULL
    -- byref value 4 is logical refcount of 2: one for caller, one for stack
    let flags ← load32 arg 16
    store32 copy 16 (flags ||| BLOCK_BYREF_NEEDS_FREE ||| 4)
    store64 copy 8 copy
    store64 arg 8 copy
    let size ← load32 arg 20
    store32 copy 20 size
    let flags ← load32 arg 16
    if flags &&& BLOCK_BYREF_HAS_COPY_DISPOSE ≠ 0 then
      let byrefKeepFn ← load64 arg 24
      store64 copy 24 byrefKeepFn
      let byrefDestroyFn ← load64 arg 32
      store64 copy 32 byrefDestroyFn
      let flags ← load32 arg 16
      if flags &&& BLOCK_BYREF_LAYOUT_EXTENDED ≠ 0 then
        let layout ← load64 arg 40
        store64 copy 40 layout
      let byrefKeepFn ← load64 arg 24
      log (.byrefKeep copy)
      callCode (im.keepCode byrefKeepFn) fun code => byrefKeep code copy arg
    else
      -- Bitwise copy.  This copy includes Block_byref_3, if any.
      let size ← load32 arg 20
      memmove copy 24 arg 24 (size.toNat - 24)
  else
    let forwarding ← load64 arg 8
    let flags ← load32 forwarding 16
    if flags &&& BLOCK_BYREF_NEEDS_FREE = BLOCK_BYREF_NEEDS_FREE then
      -- already copied to heap
      let forwarding ← load64 arg 8
      let _ ← loopFlags forwarding 16 latchingIncrInt
  load64 arg 8

/-- `_Block_object_assign`, with `dest` as an object and an offset. -/
def blockObjectAssignBody (retainObject : Addr → RawM Unit)
    (blockCopy blockByrefCopy : Addr → RawM Addr) (dest : Addr) (off : Nat) (object : Addr)
    (flags : Flags) : RawM Unit := do
  let kind := flags &&& BLOCK_ALL_COPY_DISPOSE_FLAGS
  if kind = BLOCK_FIELD_IS_OBJECT then
    retainObject object
    store64 dest off object
  else if kind = BLOCK_FIELD_IS_BLOCK then
    let copy ← blockCopy object
    store64 dest off copy
  else if kind = BLOCK_FIELD_IS_BYREF ||| BLOCK_FIELD_IS_WEAK ∨ kind = BLOCK_FIELD_IS_BYREF then
    let copy ← blockByrefCopy object
    store64 dest off copy
  else if kind = BLOCK_BYREF_CALLER ||| BLOCK_FIELD_IS_OBJECT ∨
      kind = BLOCK_BYREF_CALLER ||| BLOCK_FIELD_IS_BLOCK then
    store64 dest off object
  else if kind = BLOCK_BYREF_CALLER ||| BLOCK_FIELD_IS_OBJECT ||| BLOCK_FIELD_IS_WEAK ∨
      kind = BLOCK_BYREF_CALLER ||| BLOCK_FIELD_IS_BLOCK ||| BLOCK_FIELD_IS_WEAK then
    store64 dest off object
  else
    return

/-- The copy helper that makes these calls. -/
def copyHelper (assign : Addr → Nat → Addr → Flags → RawM Unit) :
    List (Nat × Flags) → Addr → Addr → RawM Unit
  | [], _, _ => pure ()
  | field :: fields, dst, src => do
    let object ← load64 src field.1
    assign dst field.1 object field.2
    copyHelper assign fields dst src

/-- A function behind `byref_keep`. -/
def byrefKeepHelper (assign : Addr → Nat → Addr → Flags → RawM Unit)
    (blockCopy : Addr → RawM Addr) (code : KeepCode) (dst src : Addr) : RawM Unit :=
  match code with
  | .assign off flags => do
    let object ← load64 src off
    assign dst off object flags
  | .copy off => do
    let object ← load64 src off
    let value ← blockCopy object
    store64 dst off value

/-- `_Block_object_assign` with at most `n` nested calls. -/
def blockObjectAssignN (im : Image) (env : RawEnv) : Nat → Addr → Nat → Addr → Flags → RawM Unit
  | 0, _, _, _, _ => fault .outOfFuel
  | n + 1, dest, off, object, flags =>
    let blockCopy := blockCopyBody im env (copyHelper (blockObjectAssignN im env n))
    let blockByrefCopy :=
      blockByrefCopyBody im env (byrefKeepHelper (blockObjectAssignN im env n) blockCopy)
    blockObjectAssignBody (fun o => log (.retainObject o)) blockCopy blockByrefCopy dest off object
      flags

def blockCopyN (im : Image) (env : RawEnv) (n : Nat) : Addr → RawM Addr :=
  blockCopyBody im env (copyHelper (blockObjectAssignN im env n))

def blockByrefCopyN (im : Image) (env : RawEnv) (n : Nat) : Addr → RawM Addr :=
  blockByrefCopyBody im env (byrefKeepHelper (blockObjectAssignN im env n) (blockCopyN im env n))

theorem blockObjectAssignN_succ (im : Image) (env : RawEnv) (n : Nat) (dest : Addr) (off : Nat)
    (object : Addr) (flags : Flags) :
    blockObjectAssignN im env (n + 1) dest off object flags =
      blockObjectAssignBody (fun o => log (.retainObject o)) (blockCopyN im env n)
        (blockByrefCopyN im env n) dest off object flags := rfl

/-! ## Releasing -/

/-- `_Block_release`. -/
def blockReleaseBody (im : Image) (disposeHelper : List (Nat × Flags) → Addr → RawM Unit)
    (arg : Addr) : RawM Unit := do
  if arg = NULL then
    return
  let flags ← load32 arg 8
  if flags &&& BLOCK_IS_GLOBAL ≠ 0 then
    return
  let flags ← load32 arg 8
  if flags &&& BLOCK_NEEDS_FREE = 0 then
    return
  if ← loopFlags arg 8 latchingDecrIntShouldDeallocate then
    blockCallDisposeHelper im disposeHelper arg
    log (.destructInstance arg)
    free (.freeBlock arg) arg

/-- `_Block_byref_release`. -/
def blockByrefReleaseBody (im : Image) (byrefDestroy : DestroyCode → Addr → RawM Unit)
    (arg : Addr) : RawM Unit := do
  -- dereference the forwarding pointer
  let byref ← load64 arg 8
  let flags ← load32 byref 16
  if flags &&& BLOCK_BYREF_NEEDS_FREE ≠ 0 then
    let flags ← load32 byref 16
    let refcount := flags &&& BLOCK_REFCOUNT_MASK
    if refcount = 0 then
      -- os_assert(refcount)
      fault .assertFailed
    if ← loopFlags byref 16 latchingDecrIntShouldDeallocate then
      let flags ← load32 byref 16
      if flags &&& BLOCK_BYREF_HAS_COPY_DISPOSE ≠ 0 then
        let byrefDestroyFn ← load64 byref 32
        log (.byrefDestroy byref)
        callCode (im.destroyCode byrefDestroyFn) fun code => byrefDestroy code byref
      free (.freeByref byref) byref

/-- `_Block_object_dispose`. -/
def blockObjectDisposeBody (releaseObject blockRelease blockByrefRelease : Addr → RawM Unit)
    (object : Addr) (flags : Flags) : RawM Unit := do
  let kind := flags &&& BLOCK_ALL_COPY_DISPOSE_FLAGS
  if kind = BLOCK_FIELD_IS_BYREF ||| BLOCK_FIELD_IS_WEAK ∨ kind = BLOCK_FIELD_IS_BYREF then
    -- get rid of the __block data structure held in a Block
    blockByrefRelease object
  else if kind = BLOCK_FIELD_IS_BLOCK then
    blockRelease object
  else if kind = BLOCK_FIELD_IS_OBJECT then
    releaseObject object
  else
    -- the four BLOCK_BYREF_CALLER combinations and the default
    return

/-- The dispose helper that makes these calls. -/
def disposeHelper (dispose : Addr → Flags → RawM Unit) : List (Nat × Flags) → Addr → RawM Unit
  | [], _ => pure ()
  | field :: fields, src => do
    let object ← load64 src field.1
    dispose object field.2
    disposeHelper dispose fields src

/-- A function behind `byref_destroy`. -/
def byrefDestroyHelper (dispose : Addr → Flags → RawM Unit) (blockRelease : Addr → RawM Unit)
    (code : DestroyCode) (byref : Addr) : RawM Unit :=
  match code with
  | .dispose off flags => do
    let object ← load64 byref off
    dispose object flags
  | .release off => do
    let object ← load64 byref off
    blockRelease object

/-- `_Block_object_dispose` with at most `n` nested calls. -/
def blockObjectDisposeN (im : Image) : Nat → Addr → Flags → RawM Unit
  | 0, _, _ => fault .outOfFuel
  | n + 1, object, flags =>
    let blockRelease := blockReleaseBody im (disposeHelper (blockObjectDisposeN im n))
    let blockByrefRelease :=
      blockByrefReleaseBody im (byrefDestroyHelper (blockObjectDisposeN im n) blockRelease)
    blockObjectDisposeBody (fun o => log (.releaseObject o)) blockRelease blockByrefRelease object
      flags

def blockReleaseN (im : Image) (n : Nat) : Addr → RawM Unit :=
  blockReleaseBody im (disposeHelper (blockObjectDisposeN im n))

def blockByrefReleaseN (im : Image) (n : Nat) : Addr → RawM Unit :=
  blockByrefReleaseBody im
    (byrefDestroyHelper (blockObjectDisposeN im n) (blockReleaseN im n))

theorem blockObjectDisposeN_succ (im : Image) (n : Nat) (object : Addr) (flags : Flags) :
    blockObjectDisposeN im (n + 1) object flags =
      blockObjectDisposeBody (fun o => log (.releaseObject o)) (blockReleaseN im n)
        (blockByrefReleaseN im n) object flags := rfl

/-! ## Entry points -/

def copyFuel (r : RawMem) : Nat := (r.next + 2) * (r.next + 2)

def releaseFuel (r : RawMem) : Nat := 2 * r.next

/-- `_Block_copy`. -/
def blockCopy (im : Image) (env : RawEnv) (arg : Addr) : RawM Addr :=
  fun r => blockCopyN im env (copyFuel r) arg r

/-- `_Block_object_assign`. -/
def blockObjectAssign (im : Image) (env : RawEnv) (dest : Addr) (off : Nat) (object : Addr)
    (flags : Flags) : RawM Unit :=
  fun r => blockObjectAssignN im env (copyFuel r + 1) dest off object flags r

/-- `_Block_release`. -/
def blockRelease (im : Image) (arg : Addr) : RawM Unit :=
  fun r => blockReleaseN im (releaseFuel r) arg r

/-- `_Block_object_dispose`. -/
def blockObjectDispose (im : Image) (object : Addr) (flags : Flags) : RawM Unit :=
  fun r => blockObjectDisposeN im (releaseFuel r + 1) object flags r

/-! ## The accessors -/

/-- `Block_size`. -/
def blockSize (im : Image) (aBlock : Addr) : RawM Word := do
  let desc ← load64 aBlock 24
  dataWord im desc 8

/-- `_Block_use_stret`. -/
def blockUseStret (aBlock : Addr) : RawM Bool := do
  let requiredFlags := BLOCK_HAS_SIGNATURE ||| BLOCK_USE_STRET
  let flags ← load32 aBlock 8
  return decide (flags &&& requiredFlags = requiredFlags)

/-- `_Block_signature`. -/
def blockSignature (im : Image) (aBlock : Addr) : RawM Word := do
  match ← blockDescriptor3 aBlock with
  | none => return NULL
  | some desc3 => dataWord im desc3.1 desc3.2

/-- `_Block_has_signature`. -/
def blockHasSignature (im : Image) (aBlock : Addr) : RawM Bool := do
  let signature ← blockSignature im aBlock
  return decide (signature ≠ NULL)

/-- `_Block_layout`. -/
def blockLayout (im : Image) (aBlock : Addr) : RawM Word := do
  let flags ← load32 aBlock 8
  if flags &&& BLOCK_HAS_EXTENDED_LAYOUT ≠ 0 then
    return NULL
  match ← blockDescriptor3 aBlock with
  | none => return NULL
  | some desc3 => dataWord im desc3.1 (desc3.2 + 8)

/-- `_Block_extended_layout`. -/
def blockExtendedLayout (im : Image) (aBlock : Addr) : RawM ExtendedLayout := do
  let flags ← load32 aBlock 8
  if flags &&& BLOCK_HAS_EXTENDED_LAYOUT = 0 then
    return .null
  match ← blockDescriptor3 aBlock with
  | none => return .null
  | some desc3 => do
    let word ← dataWord im desc3.1 (desc3.2 + 8)
    -- Return empty string (all non-object bytes) instead of NULL
    if word = NULL then return .empty else return .layout word

/-- `_Block_tryRetain`. -/
def blockTryRetain (arg : Addr) : RawM Bool := loopFlags arg 8 latchingIncrIntNotDeallocating

/-- `_Block_isDeallocating`. -/
def blockIsDeallocating (arg : Addr) : RawM Bool := do
  let flags ← load32 arg 8
  return decide (flags &&& BLOCK_DEALLOCATING ≠ 0)

end BlocksRuntime.Raw
