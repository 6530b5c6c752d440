import BlocksRuntime.RetryLoop.Linearize
import BlocksRuntime.Threads.Records

/-!
# Threads

Any number of threads that retain and release shared records.  A thread is
the stack of its C activations.  One step runs the top activation up to its
next access to a flags word, so a step of another thread may come between any
two of them.

* `Frame` is one activation with its program counter, `Frame.step` its next
  step: the activations that replace it, and the references that the thread
  has gained.
* `Frame.refs` are the references that an activation is going to give up, and
  `Frame.borrowed` is the reference through which a retain works.
* `Machine` is the memory with its threads.  A thread calls the runtime on
  references that it holds, and hands references to other threads.
* `Machine.schedule` runs the threads in a given order.
-/

namespace BlocksRuntime.Threads

open Ownership RetryLoop

/-! ## Shared words -/

/-- Read a flags word. -/
def loadWord (r : Ref) : M Flags := fun s =>
  match recordAt s r with
  | some x => .ok (x.word, s)
  | none => .error (badAddr (addrOf r))

/-- The store of a compare-and-swap that succeeds. -/
def storeWord (r : Ref) (w : Flags) : M Unit := fun s =>
  match recordAt s r with
  | some _ => .ok ((), Mem.setWord s r w)
  | none => .error (badAddr (addrOf r))

section

variable {s : Mem} {r : Ref} {x : HeapRecord}

theorem loadWord_ok (h : recordAt s r = some x) : loadWord r s = .ok (x.word, s) := by
  simp [loadWord, h]

theorem storeWord_ok (h : recordAt s r = some x) (w : Flags) :
    storeWord r w s = .ok ((), Mem.setWord s r w) := by
  simp [storeWord, h]

end

/-! ## What a flags argument selects -/

/-- The `switch` that `_Block_object_assign` and `_Block_object_dispose` share.
The four `BLOCK_BYREF_CALLER` combinations and the default count nothing. -/
def heldKind (flags : Flags) : FieldKind :=
  let kind := flags &&& BLOCK_ALL_COPY_DISPOSE_FLAGS
  if kind = BLOCK_FIELD_IS_BYREF ||| BLOCK_FIELD_IS_WEAK then .weakByref
  else if kind = BLOCK_FIELD_IS_BYREF then .byref
  else if kind = BLOCK_FIELD_IS_BLOCK then .block
  else if kind = BLOCK_FIELD_IS_OBJECT then .object
  else .plain

theorem heldKind_flags {k : FieldKind} {flags : Flags} (h : k.flags = some flags) :
    heldKind flags = k := by
  cases k <;> cases h <;> decide

theorem heldKind_byrefHelper {flags : Flags} (h : flags ∈ byrefHelperFlags) :
    heldKind flags = .plain := by
  simp only [byrefHelperFlags, List.mem_cons, List.not_mem_nil, or_false] at h
  rcases h with rfl | rfl | rfl | rfl <;> decide

/-- Where a `__block` variable is. -/
def forwardOf (s : Mem) (v : Addr) : Addr :=
  match s.byrefs v with
  | some c => c.byref.forwarding
  | none => v

theorem forwardOf_some {s : Mem} {v : Addr} {c : ByrefCell} (h : s.byrefs v = some c) :
    forwardOf s v = c.byref.forwarding := by
  simp [forwardOf, h]

/-- The reference behind a value that a helper handles with some flags. -/
def heldRefs (s : Mem) (object : Addr) (flags : Flags) : Multiset Ref :=
  match heldKind flags with
  | .byref | .weakByref => {.byref (forwardOf s object)}
  | .block => {.block object}
  | .object => {.object object}
  | .plain => 0

/-! ## Activations -/

/-- An activation of a runtime function, at one of its program points. -/
inductive Frame where
  /-- `_Block_object_dispose`. -/
  | objectDispose (object : Addr) (flags : Flags)
  /-- `_Block_release`. -/
  | release (arg : Addr)
  | releaseNeedsFree (aBlock : Addr)
  | callDisposeHelper (aBlock : Addr)
  | destructInstance (aBlock : Addr)
  | freeBlock (aBlock : Addr)
  /-- `_Block_byref_release`. -/
  | byrefRelease (arg : Addr)
  | byrefReleaseNeedsFree (byref : Addr)
  | byrefReleaseAssert (byref : Addr)
  | byrefHasDispose (byref : Addr)
  | byrefDestroy (byref : Addr)
  | freeByref (byref : Addr)
  /-- `latching_decr_int_should_deallocate` on a flags word. -/
  | decrRead (r : Ref)
  | decrSwap (r : Ref) (a : Swap Flags Bool)
  /-- A dispose helper, with the captured variables that are left. -/
  | disposeFields (xs : List Capture)
  /-- `_Block_object_assign`. -/
  | objectAssign (object : Addr) (flags : Flags)
  /-- `_Block_copy`. -/
  | copy (arg : Addr)
  | copyIsGlobal (aBlock : Addr)
  /-- `_Block_byref_copy`. -/
  | byrefCopy (arg : Addr)
  | byrefCopyNeedsFree (arg : Addr)
  | byrefCopyReturn (arg : Addr)
  /-- `latching_incr_int` on a flags word. -/
  | incrRead (r : Ref)
  | incrSwap (r : Ref) (a : Swap Flags Flags)
  /-- The copy of a stack block or of an unmoved variable, which is private to
  one thread.  The machine does not follow it. -/
  | leave (arg : Addr)

/-- What a verdict on a record continues with. -/
def verdict : Ref → List Frame
  | .block aBlock => [.callDisposeHelper aBlock]
  | .byref byref => [.byrefHasDispose byref]
  | .object _ => []

/-- The way back from `latching_decr_int_should_deallocate`. -/
def afterDecr (r : Ref) (shouldDeallocate : Bool) : List Frame :=
  if shouldDeallocate then verdict r else []

namespace Frame

/-- The next step of an activation. -/
def step : Frame → M (List Frame × Multiset Ref)
  | .objectDispose object flags =>
    match heldKind flags with
    | .byref | .weakByref => return ([.byrefRelease object], 0)
    | .block => return ([.release object], 0)
    | .object => do
      log (.releaseObject object)
      return ([], 0)
    | .plain => return ([], 0)
  | .release arg => do
    if arg = NULL then
      return ([], 0)
    let aBlock ← loadBlock arg
    if aBlock.flags &&& BLOCK_IS_GLOBAL ≠ 0 then
      return ([], 0)
    return ([.releaseNeedsFree arg], 0)
  | .releaseNeedsFree arg => do
    let aBlock ← loadBlock arg
    if aBlock.flags &&& BLOCK_NEEDS_FREE = 0 then
      return ([], 0)
    return ([.decrRead (.block arg)], 0)
  | .callDisposeHelper aBlock => do
    let block ← loadBlock aBlock
    match blockDescriptor2 block with
    | none => return ([.destructInstance aBlock], 0)
    | some desc => do
      let dispose ← wordAt desc 1
      log (.disposeHelper dispose aBlock)
      return ([.disposeFields block.captured, .destructInstance aBlock], 0)
  | .destructInstance aBlock => do
    log (.destructInstance aBlock)
    return ([.freeBlock aBlock], 0)
  | .freeBlock aBlock => do
    BlocksRuntime.freeBlock aBlock
    return ([], 0)
  | .byrefRelease arg => do
    let record ← loadByref arg
    return ([.byrefReleaseNeedsFree record.forwarding], 0)
  | .byrefReleaseNeedsFree byref => do
    let target ← loadByref byref
    if target.flags &&& BLOCK_BYREF_NEEDS_FREE ≠ 0 then
      return ([.byrefReleaseAssert byref], 0)
    return ([], 0)
  | .byrefReleaseAssert byref => do
    let target ← loadByref byref
    if target.flags &&& BLOCK_REFCOUNT_MASK = 0 then
      fault .assertFailed
    return ([.decrRead (.byref byref)], 0)
  | .byrefHasDispose byref => do
    let target ← loadByref byref
    if target.flags &&& BLOCK_BYREF_HAS_COPY_DISPOSE ≠ 0 then
      return ([.byrefDestroy byref], 0)
    return ([.freeByref byref], 0)
  | .byrefDestroy byref => do
    log (.byrefDestroy byref)
    let record ← loadByref byref
    match record.byref2 with
    | none => fault .wildCall
    | some byref2 =>
      match byref2.byrefDestroy with
      | .dispose field flags => do
        let object ← wordAt record.storage field
        return ([.objectDispose object flags, .freeByref byref], 0)
      | .release field => do
        let object ← wordAt record.storage field
        return ([.release object, .freeByref byref], 0)
  | .freeByref byref => do
    BlocksRuntime.freeByref byref
    return ([], 0)
  | .decrRead r => do
    let oldValue ← loadWord r
    match latchingDecrIntShouldDeallocate oldValue with
    | .exit result => return (afterDecr r result, 0)
    | .cas newValue result => return ([.decrSwap r ⟨oldValue, newValue, result⟩], 0)
  | .decrSwap r a => do
    let word ← loadWord r
    if word = a.old then
      storeWord r a.new
      return (afterDecr r a.result, 0)
    return ([.decrRead r], 0)
  | .disposeFields [] => return ([], 0)
  | .disposeFields (x :: xs) =>
    match x.kind.flags with
    | none => return ([.disposeFields xs], 0)
    | some flags => return ([.objectDispose x.value flags, .disposeFields xs], 0)
  | .objectAssign object flags =>
    match heldKind flags with
    | .byref | .weakByref => return ([.byrefCopy object], 0)
    | .block => return ([.copy object], 0)
    | .object => do
      log (.retainObject object)
      return ([], {.object object})
    | .plain => return ([], 0)
  | .copy arg => do
    if arg = NULL then
      return ([], {.block arg})
    let aBlock ← loadBlock arg
    if aBlock.flags &&& BLOCK_NEEDS_FREE ≠ 0 then
      return ([.incrRead (.block arg)], 0)
    return ([.copyIsGlobal arg], 0)
  | .copyIsGlobal arg => do
    let aBlock ← loadBlock arg
    if aBlock.flags &&& BLOCK_IS_GLOBAL ≠ 0 then
      return ([], {.block arg})
    return ([.leave arg], 0)
  | .byrefCopy arg => do
    let src ← loadByref arg
    let target ← loadByref src.forwarding
    if target.flags &&& BLOCK_REFCOUNT_MASK = 0 then
      return ([.leave arg], 0)
    return ([.byrefCopyNeedsFree arg], 0)
  | .byrefCopyNeedsFree arg => do
    let src ← loadByref arg
    let target ← loadByref src.forwarding
    if target.flags &&& BLOCK_BYREF_NEEDS_FREE = BLOCK_BYREF_NEEDS_FREE then
      return ([.incrRead (.byref src.forwarding), .byrefCopyReturn arg], 0)
    return ([.byrefCopyReturn arg], 0)
  | .byrefCopyReturn arg => do
    let _ ← loadByref arg
    return ([], 0)
  | .incrRead r => do
    let oldValue ← loadWord r
    match latchingIncrInt oldValue with
    | .exit _ => return ([], {r})
    | .cas newValue result => return ([.incrSwap r ⟨oldValue, newValue, result⟩], 0)
  | .incrSwap r a => do
    let word ← loadWord r
    if word = a.old then
      storeWord r a.new
      return ([], {r})
    return ([.incrRead r], 0)
  | .leave arg => fault (.dangling arg)

/-- The references that a record owns. -/
def ownsOf (s : Mem) (r : Ref) : Multiset Ref :=
  match recordAt s r with
  | some x => x.owns
  | none => 0

/-- The references that an activation is going to give up. -/
def refs (s : Mem) : Frame → Multiset Ref
  | .objectDispose object flags => heldRefs s object flags
  | .release arg => {.block arg}
  | .releaseNeedsFree aBlock => {.block aBlock}
  | .callDisposeHelper aBlock => ownsOf s (.block aBlock)
  | .byrefRelease arg => {.byref (forwardOf s arg)}
  | .byrefReleaseNeedsFree byref => {.byref byref}
  | .byrefReleaseAssert byref => {.byref byref}
  | .byrefHasDispose byref => ownsOf s (.byref byref)
  | .byrefDestroy byref => ownsOf s (.byref byref)
  | .decrRead r => {r}
  | .decrSwap r _ => {r}
  | .disposeFields xs => ownedRefs xs
  | _ => 0

/-- The reference through which a retain works. -/
def borrowed (s : Mem) : Frame → Multiset Ref
  | .objectAssign object flags => heldRefs s object flags
  | .copy arg => {.block arg}
  | .copyIsGlobal aBlock => {.block aBlock}
  | .byrefCopy arg => {.byref (forwardOf s arg)}
  | .byrefCopyNeedsFree arg => {.byref (forwardOf s arg)}
  | .byrefCopyReturn arg => {.byref (forwardOf s arg)}
  | .incrRead r => {r}
  | .incrSwap r _ => {r}
  | _ => 0

/-- The record that an activation tears down. -/
def dying : Frame → Multiset Ref
  | .callDisposeHelper aBlock => {.block aBlock}
  | .destructInstance aBlock => {.block aBlock}
  | .freeBlock aBlock => {.block aBlock}
  | .byrefHasDispose byref => {.byref byref}
  | .byrefDestroy byref => {.byref byref}
  | .freeByref byref => {.byref byref}
  | _ => 0

/-- The calls that a thread makes from outside. -/
def entry : Frame → Bool
  | .release _ | .objectDispose _ _ | .copy _ | .objectAssign _ _ => true
  | _ => false

end Frame

/-! ## The machine -/

/-- A thread: its activations, the innermost first, and the references that it
holds. -/
structure Worker where
  stack : List Frame
  held : Multiset Ref

/-- The references in a stack. -/
def stackRefs (s : Mem) (fs : List Frame) : Multiset Ref := (fs.map (Frame.refs s)).sum

/-- The records that a stack tears down. -/
def stackDying (fs : List Frame) : Multiset Ref := (fs.map Frame.dying).sum

section

variable (s : Mem) (f : Frame) (fs gs : List Frame)

@[simp] theorem stackRefs_nil : stackRefs s [] = 0 := rfl

@[simp] theorem stackRefs_cons : stackRefs s (f :: fs) = f.refs s + stackRefs s fs := by
  simp [stackRefs]

@[simp] theorem stackRefs_append : stackRefs s (fs ++ gs) = stackRefs s fs + stackRefs s gs := by
  simp [stackRefs]

@[simp] theorem stackDying_nil : stackDying [] = 0 := rfl

@[simp] theorem stackDying_cons : stackDying (f :: fs) = f.dying + stackDying fs := by
  simp [stackDying]

@[simp] theorem stackDying_append : stackDying (fs ++ gs) = stackDying fs + stackDying gs := by
  simp [stackDying]

theorem mem_stackDying {r : Ref} : r ∈ stackDying fs ↔ ∃ f ∈ fs, r ∈ f.dying := by
  induction fs with
  | nil => simp
  | cons f fs ih => simp [ih]

end

/-- The references that a thread holds or is about to give up. -/
def Worker.refs (s : Mem) (x : Worker) : Multiset Ref := stackRefs s x.stack + x.held

/-- The memory and the threads that share it. -/
structure Machine (ι : Type) where
  mem : Mem
  workers : ι → Worker

variable {ι : Type} [DecidableEq ι]

/-- Another memory and another state of one thread. -/
def Machine.put (m : Machine ι) (i : ι) (t : Mem) (x : Worker) : Machine ι :=
  ⟨t, Function.update m.workers i x⟩

@[simp] theorem Machine.put_mem (m : Machine ι) (i : ι) (t : Mem) (x : Worker) :
    (m.put i t x).mem = t := rfl

@[simp] theorem Machine.put_self (m : Machine ι) (i : ι) (t : Mem) (x : Worker) :
    (m.put i t x).workers i = x := by
  simp [Machine.put]

@[simp] theorem Machine.put_ne (m : Machine ι) {i j : ι} (t : Mem) (x : Worker) (h : j ≠ i) :
    (m.put i t x).workers j = m.workers j := by
  simp [Machine.put, h]

/-- What happens in one step of the machine. -/
inductive Act (ι : Type) where
  /-- An idle thread calls the runtime. -/
  | call (i : ι) (f : Frame)
  /-- A thread takes a step of its top activation. -/
  | advance (i : ι)
  /-- An idle thread hands references to another thread. -/
  | give (i j : ι)

/-- The steps of the machine. -/
inductive Machine.Step (m : Machine ι) : Act ι → Machine ι → Prop where
  | call (i : ι) (f : Frame) (rest : Multiset Ref) (hidle : (m.workers i).stack = [])
      (hf : f.entry) (hheld : (m.workers i).held = f.refs m.mem + rest)
      (hborrow : f.borrowed m.mem ≤ rest) : Step m (.call i f) (m.put i m.mem ⟨[f], rest⟩)
  | advance (i : ι) (f : Frame) (fs gs : List Frame) (gained : Multiset Ref) (t : Mem)
      (hstack : (m.workers i).stack = f :: fs) (hrun : f.step m.mem = .ok ((gs, gained), t)) :
      Step m (.advance i) (m.put i t ⟨gs ++ fs, (m.workers i).held + gained⟩)
  | give (i j : ι) (w rest : Multiset Ref) (hij : i ≠ j) (hidle : (m.workers i).stack = [])
      (hheld : (m.workers i).held = w + rest) :
      Step m (.give i j) ((m.put i m.mem ⟨[], rest⟩).put j m.mem
        ⟨(m.workers j).stack, (m.workers j).held + w⟩)

/-- A run of the machine. -/
inductive Machine.Run (m₀ : Machine ι) : List (Act ι) → Machine ι → Prop where
  | start : Run m₀ [] m₀
  | step (acts : List (Act ι)) (m : Machine ι) (a : Act ι) (m' : Machine ι) (h : Run m₀ acts m)
      (hstep : m.Step a m') : Run m₀ (acts ++ [a]) m'

theorem Machine.Run.append {m₀ m m' : Machine ι} {acts acts' : List (Act ι)} (h : m₀.Run acts m)
    (h' : m.Run acts' m') : m₀.Run (acts ++ acts') m' := by
  induction h' with
  | start => rwa [List.append_nil]
  | step acts' m₁ a m₂ _ hstep ih =>
    rw [← List.append_assoc]
    exact .step _ _ _ _ ih hstep

/-- Threads take steps in this order.  The turn of an idle thread passes. -/
def Machine.schedule (m : Machine ι) : List ι → Except Fault (Machine ι)
  | [] => .ok m
  | i :: is =>
    match (m.workers i).stack with
    | [] => m.schedule is
    | f :: fs =>
      match f.step m.mem with
      | .ok ((gs, gained), t) => (m.put i t ⟨gs ++ fs, (m.workers i).held + gained⟩).schedule is
      | .error e => .error e

/-- The calls of a run. -/
def callsOf (acts : List (Act ι)) : List Frame :=
  acts.filterMap fun
    | .call _ f => some f
    | _ => none

/-- The steps of activations in a run. -/
def advances (acts : List (Act ι)) : Nat :=
  acts.countP fun
    | .advance _ => true
    | _ => false

/-- A schedule is a run without calls. -/
theorem Machine.run_schedule {m m' : Machine ι} {turns : List ι} (h : m.schedule turns = .ok m') :
    ∃ acts, m.Run acts m' ∧ callsOf acts = [] := by
  induction turns generalizing m with
  | nil =>
    cases h
    exact ⟨[], .start, rfl⟩
  | cons i turns ih =>
    rw [Machine.schedule] at h
    cases hstack : (m.workers i).stack with
    | nil =>
      rw [hstack] at h
      exact ih h
    | cons f fs =>
      rw [hstack] at h
      dsimp only at h
      cases hstep : f.step m.mem with
      | error e =>
        rw [hstep] at h
        cases h
      | ok out =>
        obtain ⟨⟨gs, gained⟩, t⟩ := out
        rw [hstep] at h
        obtain ⟨acts, hrun, hcalls⟩ := ih h
        refine ⟨[.advance i] ++ acts, (Machine.Run.step [] m _ _ .start
          (.advance i f fs gs gained t hstack hstep)).append hrun, ?_⟩
        rw [callsOf, List.filterMap_append]
        exact hcalls

/-- Only activations change the memory. -/
theorem Machine.Run.mem_eq {m₀ m : Machine ι} {acts : List (Act ι)} (h : m₀.Run acts m)
    (hnone : advances acts = 0) : m.mem = m₀.mem := by
  induction h with
  | start => rfl
  | step acts m a m' _ hstep ih =>
    rw [advances, List.countP_append, Nat.add_eq_zero_iff] at hnone
    cases hstep with
    | call i f rest => exact ih hnone.1
    | advance i f fs gs gained t => exact absurd hnone.2 Nat.one_ne_zero
    | give i j w rest => exact ih hnone.1

end BlocksRuntime.Threads
