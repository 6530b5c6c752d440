import BlocksRuntime.OwnershipCount
import BlocksRuntime.RetryLoop.Linearize
import Mathlib.Algebra.Order.BigOperators.Group.Finset

/-!
# One heap object, many threads

The life of a heap block, or of a `__block` record on the heap, that any
number of threads share.

* `Pc` is where a thread is in the code of the runtime.  Each place but `idle`
  is one atomic step: a read of the flags word, a compare-and-swap, a read of
  the forwarding pointer, a call of the helper, `_Block_destructInstance`, or
  `free`.
* `State.next` is an action of a thread: it starts a call, takes an atomic
  step, or hands a reference to another thread between two calls.
* `Inv` relates the word to the references that the threads hold, counting
  those in flight in a call.
* `lifetime_safety` is the result for every reachable state.
-/

namespace BlocksRuntime

open RetryLoop

/-! ## Threads -/

/-- The two kinds of objects with a count. -/
inductive HeapObject where
  | block
  | byref
  deriving DecidableEq, Repr

/-- What happens to the object in the end. -/
inductive LifeEvent where
  /-- The dispose helper of a block, or `byref_destroy`. -/
  | helper
  | destructInstance
  | free
  deriving DecidableEq, Repr

/-- The place of a thread in the code, before the step of that name. -/
inductive Pc where
  | idle
  /-- `_Block_copy`: the tests of `BLOCK_NEEDS_FREE` and `BLOCK_IS_GLOBAL`. -/
  | copyNeedsFree
  | copyIsGlobal
  /-- `_Block_byref_copy`: `src->forwarding->flags` is read for each test, and
  `src->forwarding` at the end. -/
  | byrefCopyRefcount
  | byrefCopyNeedsFree
  | byrefCopyReturn
  /-- `latching_incr_int`. -/
  | incrRead
  | incrSwap (a : Swap Flags Flags)
  /-- `_Block_release`: the tests of `BLOCK_IS_GLOBAL` and
  `BLOCK_NEEDS_FREE`. -/
  | releaseIsGlobal
  | releaseNeedsFree
  /-- `_Block_byref_release`: the forwarding pointer, the test of
  `BLOCK_BYREF_NEEDS_FREE`, and the read before `os_assert`. -/
  | byrefReleaseForwarding
  | byrefReleaseNeedsFree
  | byrefReleaseAssert
  /-- `latching_decr_int_should_deallocate`. -/
  | decrRead
  | decrSwap (a : Swap Flags Bool)
  /-- After the verdict: the test of `BLOCK_HAS_COPY_DISPOSE`, the helper,
  `_Block_destructInstance`, and `free`. -/
  | helperTest
  | helper
  | destruct
  | free
  /-- `_Block_tryRetain`. -/
  | tryRead
  | trySwap (a : Swap Flags Bool)
  /-- `_Block_isDeallocating`. -/
  | isDeallocatingRead
  /-- `os_assert` failed. -/
  | assertFailed
  /-- A call took the path for an object that is not on the heap. -/
  | stray

/-- A call that a thread may make. -/
inductive ObjectCall where
  | copy
  | release
  | tryRetain
  | isDeallocating
  deriving DecidableEq, Repr

/-- A thread. -/
structure Owner where
  pc : Pc
  /-- The references that the thread holds and is not giving up. -/
  held : Nat

/-! ## Atomic steps -/

/-- The object and its threads. -/
structure State (ι : Type) where
  word : Flags
  threads : ι → Owner
  events : List LifeEvent

inductive Action (ι : Type) where
  | start (i : ι) (call : ObjectCall)
  | step (i : ι)
  | give (i j : ι)

/-- In a call that the exclusion zone of weak references protects. -/
def Pc.inZone : Pc → Prop
  | .tryRead => True
  | .trySwap _ => True
  | .isDeallocatingRead => True
  | _ => False

instance (pc : Pc) : Decidable pc.inZone := by
  cases pc <;> unfold Pc.inZone <;> infer_instance

namespace State

variable {ι : Type} [DecidableEq ι]

/-- The memory of the object has been freed. -/
def Freed (s : State ι) : Prop := LifeEvent.free ∈ s.events

instance (s : State ι) : Decidable s.Freed := by
  unfold Freed
  infer_instance

def setThread (s : State ι) (i : ι) (x : Owner) : State ι :=
  { s with threads := Function.update s.threads i x }

@[simp] theorem setThread_self (s : State ι) (i : ι) (x : Owner) :
    (s.setThread i x).threads i = x := by
  simp [setThread]

@[simp] theorem setThread_ne (s : State ι) {i j : ι} (x : Owner) (h : j ≠ i) :
    (s.setThread i x).threads j = s.threads j := by
  simp [setThread, h]

@[simp] theorem setThread_word (s : State ι) (i : ι) (x : Owner) :
    (s.setThread i x).word = s.word := rfl

@[simp] theorem setThread_events (s : State ι) (i : ι) (x : Owner) :
    (s.setThread i x).events = s.events := rfl

/-- A property of all threads after one of them has moved. -/
theorem forall_setThread {P : Owner → Prop} {s : State ι} {i : ι} {x : Owner}
    (h : ∀ j, P (s.threads j)) (hx : P x) (j : ι) :
    P ((s.setThread i x).threads j) := by
  by_cases hj : j = i
  · subst hj
    rw [setThread_self]
    exact hx
  · rw [setThread_ne s x hj]
    exact h j

/-- The thread `i` goes to `pc`. -/
def goto (s : State ι) (i : ι) (pc : Pc) : State ι := s.setThread i ⟨pc, (s.threads i).held⟩

/-- The thread `i` returns from its call with another reference. -/
def gain (s : State ι) (i : ι) : State ι := s.setThread i ⟨.idle, (s.threads i).held + 1⟩

/-- What follows `latching_incr_int`: `_Block_copy` returns, and
`_Block_byref_copy` reads the forwarding pointer again. -/
def afterIncr (o : HeapObject) (s : State ι) (i : ι) : State ι :=
  match o with
  | .block => s.gain i
  | .byref => s.goto i .byrefCopyReturn

/-- What follows `latching_decr_int_should_deallocate`. -/
def afterDecr (s : State ι) (i : ι) (shouldDeallocate : Bool) : State ι :=
  s.goto i (if shouldDeallocate then .helperTest else .idle)

/-- What follows `_Block_tryRetain`. -/
def afterTry (s : State ι) (i : ι) (retained : Bool) : State ι :=
  if retained then s.gain i else s.goto i .idle

/-- What follows the helper. -/
def afterHelper (o : HeapObject) : Pc :=
  match o with
  | .block => .destruct
  | .byref => .free

def emit (s : State ι) (e : LifeEvent) : State ι := { s with events := s.events ++ [e] }

variable [Fintype ι]

/-- The next atomic step of the thread `i` in its call.  `free` waits for the
exclusion zone. -/
def step (o : HeapObject) (s : State ι) (i : ι) : Option (State ι) :=
  match (s.threads i).pc with
  | .idle => none
  | .copyNeedsFree =>
    some (s.goto i (if s.word &&& BLOCK_NEEDS_FREE ≠ 0 then .incrRead else .copyIsGlobal))
  | .copyIsGlobal => some (s.goto i (if s.word &&& BLOCK_IS_GLOBAL ≠ 0 then .idle else .stray))
  | .byrefCopyRefcount =>
    some (s.goto i (if s.word &&& BLOCK_REFCOUNT_MASK = 0 then .stray else .byrefCopyNeedsFree))
  | .byrefCopyNeedsFree =>
    some (s.goto i (if s.word &&& BLOCK_BYREF_NEEDS_FREE = BLOCK_BYREF_NEEDS_FREE then .incrRead
      else .stray))
  | .byrefCopyReturn => some (s.gain i)
  | .incrRead =>
    match latchingIncrInt s.word with
    | .exit _ => some (s.afterIncr o i)
    | .cas new result => some (s.goto i (.incrSwap ⟨s.word, new, result⟩))
  | .incrSwap a =>
    if s.word = a.old then some ({ s with word := a.new }.afterIncr o i)
    else some (s.goto i .incrRead)
  | .releaseIsGlobal =>
    some (s.goto i (if s.word &&& BLOCK_IS_GLOBAL ≠ 0 then .idle else .releaseNeedsFree))
  | .releaseNeedsFree =>
    some (s.goto i (if s.word &&& BLOCK_NEEDS_FREE = 0 then .idle else .decrRead))
  | .byrefReleaseForwarding => some (s.goto i .byrefReleaseNeedsFree)
  | .byrefReleaseNeedsFree =>
    some (s.goto i (if s.word &&& BLOCK_BYREF_NEEDS_FREE ≠ 0 then .byrefReleaseAssert else .idle))
  | .byrefReleaseAssert =>
    some (s.goto i (if s.word &&& BLOCK_REFCOUNT_MASK = 0 then .assertFailed else .decrRead))
  | .decrRead =>
    match latchingDecrIntShouldDeallocate s.word with
    | .exit result => some (s.afterDecr i result)
    | .cas new result => some (s.goto i (.decrSwap ⟨s.word, new, result⟩))
  | .decrSwap a =>
    if s.word = a.old then some ({ s with word := a.new }.afterDecr i a.result)
    else some (s.goto i .decrRead)
  | .helperTest =>
    some (s.goto i (if s.word &&& BLOCK_HAS_COPY_DISPOSE ≠ 0 then .helper else afterHelper o))
  | .helper => some ((s.emit .helper).goto i (afterHelper o))
  | .destruct => some ((s.emit .destructInstance).goto i .free)
  | .free =>
    if ∀ j, ¬(s.threads j).pc.inZone then some ((s.emit .free).goto i .idle) else none
  | .tryRead =>
    match latchingIncrIntNotDeallocating s.word with
    | .exit result => some (s.afterTry i result)
    | .cas new result => some (s.goto i (.trySwap ⟨s.word, new, result⟩))
  | .trySwap a =>
    if s.word = a.old then some ({ s with word := a.new }.afterTry i a.result)
    else some (s.goto i .tryRead)
  | .isDeallocatingRead => some (s.goto i .idle)
  | .assertFailed => none
  | .stray => none

/-- The thread `i` starts a call.  A release takes the reference from the
thread.  `_Block_tryRetain` and `_Block_isDeallocating` need no reference, but
an object that is not freed. -/
def start (o : HeapObject) (s : State ι) (i : ι) (call : ObjectCall) : Option (State ι) :=
  match (s.threads i).pc, call with
  | .idle, .copy =>
    if 0 < (s.threads i).held then
      some (s.goto i (match o with | .block => .copyNeedsFree | .byref => .byrefCopyRefcount))
    else none
  | .idle, .release =>
    if 0 < (s.threads i).held then
      some (s.setThread i
        ⟨match o with | .block => .releaseIsGlobal | .byref => .byrefReleaseForwarding,
          (s.threads i).held - 1⟩)
    else none
  | .idle, .tryRetain =>
    if o = .block ∧ ¬s.Freed then some (s.goto i .tryRead) else none
  | .idle, .isDeallocating =>
    if o = .block ∧ ¬s.Freed then some (s.goto i .isDeallocatingRead) else none
  | _, _ => none

/-- The thread `i` hands a reference to the thread `j`. -/
def give (s : State ι) (i j : ι) : Option (State ι) :=
  match (s.threads i).pc with
  | .idle =>
    if 0 < (s.threads i).held ∧ i ≠ j then
      some ((s.setThread i ⟨.idle, (s.threads i).held - 1⟩).setThread j
        ⟨(s.threads j).pc, (s.threads j).held + 1⟩)
    else none
  | _ => none

def next (o : HeapObject) (s : State ι) : Action ι → Option (State ι)
  | .start i call => s.start o i call
  | .step i => s.step o i
  | .give i j => s.give i j

/-- The states that the threads can reach from `s`, in any order of their
actions. -/
inductive Reachable (o : HeapObject) (s : State ι) : State ι → Prop where
  | refl : Reachable o s s
  | next {t u : State ι} (h : Reachable o s t) (a : Action ι) (hn : t.next o a = some u) :
      Reachable o s u

end State

/-! ## The invariant -/

/-- The references in flight in a call: one that is being given up, or one
that was taken. -/
def Pc.inFlight : Pc → Nat
  | .byrefCopyReturn => 1
  | .releaseIsGlobal => 1
  | .releaseNeedsFree => 1
  | .byrefReleaseForwarding => 1
  | .byrefReleaseNeedsFree => 1
  | .byrefReleaseAssert => 1
  | .decrRead => 1
  | .decrSwap _ => 1
  | _ => 0

def Owner.refs (x : Owner) : Nat := x.held + x.pc.inFlight

/-- What is known of a thread at its place.  A copying thread keeps its own
reference, and a swap is what the loop decided from the value it read. -/
def Owner.Ok (o : HeapObject) (x : Owner) : Prop :=
  match x.pc with
  | .copyNeedsFree => 0 < x.held
  | .byrefCopyRefcount => 0 < x.held
  | .byrefCopyNeedsFree => 0 < x.held
  | .incrRead => 0 < x.held
  | .incrSwap a => 0 < x.held ∧ latchingIncrInt a.old = .cas a.new a.result
  | .decrSwap a => latchingDecrIntShouldDeallocate a.old = .cas a.new a.result
  | .trySwap a => latchingIncrIntNotDeallocating a.old = .cas a.new a.result
  | .releaseIsGlobal => o = .block
  | .copyIsGlobal => False
  | .assertFailed => False
  | .stray => False
  | _ => True

/-- The thread has the verdict and takes the object apart. -/
def Pc.afterVerdict : Pc → Prop
  | .helperTest => True
  | .helper => True
  | .destruct => True
  | .free => True
  | _ => False

def helperEvents (w : Flags) : List LifeEvent :=
  if w &&& BLOCK_HAS_COPY_DISPOSE ≠ 0 then [.helper] else []

def destructEvents : HeapObject → List LifeEvent
  | .block => [.destructInstance]
  | .byref => []

/-- The end of an object, with each event once and in order. -/
def lifecycle (o : HeapObject) (w : Flags) : List LifeEvent :=
  helperEvents w ++ destructEvents o ++ [.free]

/-- The events so far, for a thread with the verdict. -/
def Pc.Progress (o : HeapObject) (w : Flags) (events : List LifeEvent) : Pc → Prop
  | .helperTest => events = []
  | .helper => w &&& BLOCK_HAS_COPY_DISPOSE ≠ 0 ∧ events = []
  | .destruct => o = .block ∧ events = helperEvents w
  | .free => events = helperEvents w ++ destructEvents o
  | _ => False

theorem Pc.Progress.afterVerdict {o : HeapObject} {w : Flags} {events : List LifeEvent} {pc : Pc}
    (h : pc.Progress o w events) : pc.afterVerdict := by
  cases pc <;> trivial

/-- Nothing is freed before the last step. -/
theorem Pc.Progress.not_freed {o : HeapObject} {w : Flags} {events : List LifeEvent} {pc : Pc}
    (h : pc.Progress o w events) : .free ∉ events ∧ events <+: lifecycle o w := by
  have hhelper : LifeEvent.free ∉ helperEvents w := by
    unfold helperEvents
    split <;> simp
  have hdestruct : LifeEvent.free ∉ destructEvents o := by
    cases o <;> simp [destructEvents]
  cases pc with
  | helperTest =>
    rw [show events = [] from h]
    exact ⟨List.not_mem_nil, List.nil_prefix⟩
  | helper =>
    rw [show events = [] from h.2]
    exact ⟨List.not_mem_nil, List.nil_prefix⟩
  | destruct =>
    rw [show events = helperEvents w from h.2, lifecycle, List.append_assoc]
    exact ⟨hhelper, List.prefix_append _ _⟩
  | free =>
    rw [show events = helperEvents w ++ destructEvents o from h, lifecycle, List.mem_append]
    exact ⟨not_or.2 ⟨hhelper, hdestruct⟩, List.prefix_append _ _⟩
  | _ => exact h.elim

namespace State

variable {ι : Type} [Fintype ι]

/-- All references to the object. -/
def total (s : State ι) : Nat := ∑ i, (s.threads i).refs

/-- The phases of life. -/
inductive Phase (o : HeapObject) (s : State ι) : Prop where
  | alive (hlive : isDeallocating s.word = false) (hevents : s.events = [])
      (hnone : ∀ i, ¬(s.threads i).pc.afterVerdict)
      (hcount : refcount s.word = latched ∨ (refcount s.word = s.total ∧ 0 < s.total))
  | dying (i : ι) (hdead : isDeallocating s.word = true) (hzero : s.total = 0)
      (hprogress : (s.threads i).pc.Progress o s.word s.events)
      (hother : ∀ j, j ≠ i → ¬(s.threads j).pc.afterVerdict)
  | freed (hdead : isDeallocating s.word = true) (hzero : s.total = 0)
      (hevents : s.events = lifecycle o s.word) (hidle : ∀ i, (s.threads i).pc = .idle)

/-- The invariant, for an object that started with the word `w`. -/
structure Inv (o : HeapObject) (w : Flags) (s : State ι) : Prop where
  high : high s.word = high w
  thread : ∀ i, (s.threads i).Ok o
  phase : s.Phase o

/-- The flags of an object on the heap. -/
structure OnHeap (o : HeapObject) (w : Flags) : Prop where
  needsFree : w &&& BLOCK_NEEDS_FREE ≠ 0
  notGlobal : o = .block → w &&& BLOCK_IS_GLOBAL = 0

section

variable {o : HeapObject} {w v : Flags} {s : State ι} {i j : ι} {x : Owner}

theorem refs_le_total (s : State ι) (i : ι) : (s.threads i).refs ≤ s.total :=
  Finset.single_le_sum (f := fun i => (s.threads i).refs) (fun _ _ => Nat.zero_le _)
    (Finset.mem_univ i)

theorem Inv.freed_iff (h : Inv o w s) : s.Freed ↔
    isDeallocating s.word = true ∧ s.total = 0 ∧ s.events = lifecycle o s.word ∧
      ∀ i, (s.threads i).pc = .idle := by
  have hlife : LifeEvent.free ∈ lifecycle o s.word := by simp [lifecycle]
  refine ⟨fun hf => ?_, fun hf => ?_⟩
  · rcases h.phase with ⟨_, hevents, _, _⟩ | ⟨i, _, _, hprogress, _⟩ |
      ⟨hdead, hzero, hevents, hidle⟩
    · rw [Freed, hevents] at hf
      cases hf
    · exact absurd hf hprogress.not_freed.1
    · exact ⟨hdead, hzero, hevents, hidle⟩
  · rw [Freed, hf.2.2.1]
    exact hlife

/-- A thread in a call finds the object. -/
theorem Inv.not_freed (h : Inv o w s) (hpc : (s.threads i).pc ≠ .idle) : ¬s.Freed :=
  fun hf => hpc ((h.freed_iff.1 hf).2.2.2 i)

/-- As long as there is a reference the object is alive. -/
theorem Inv.alive (h : Inv o w s) (hpos : 0 < (s.threads i).refs) :
    isDeallocating s.word = false ∧ s.events = [] ∧ (∀ i, ¬(s.threads i).pc.afterVerdict) ∧
      (refcount s.word = latched ∨ (refcount s.word = s.total ∧ 0 < s.total)) := by
  have hle := s.refs_le_total i
  rcases h.phase with ⟨hlive, hevents, hnone, hcount⟩ | ⟨_, _, hzero, _, _⟩ | ⟨_, hzero, _, _⟩
  · exact ⟨hlive, hevents, hnone, hcount⟩
  · omega
  · omega

/-- A thread with the verdict is the only one. -/
theorem Inv.dying (h : Inv o w s) (hv : (s.threads i).pc.afterVerdict) :
    isDeallocating s.word = true ∧ s.total = 0 ∧
      (s.threads i).pc.Progress o s.word s.events ∧
      ∀ j, j ≠ i → ¬(s.threads j).pc.afterVerdict := by
  rcases h.phase with ⟨_, _, hnone, _⟩ | ⟨j, hdead, hzero, hprogress, hother⟩ | ⟨_, _, _, hidle⟩
  · exact absurd hv (hnone i)
  · by_cases hij : i = j
    · subst hij
      exact ⟨hdead, hzero, hprogress, hother⟩
    · exact absurd hv (hother i hij)
  · rw [hidle i] at hv
    exact hv.elim

/-- The bits of the compiler are those that the object started with. -/
theorem Inv.needsFree (h : Inv o w s) (hw : OnHeap o w) : s.word &&& BLOCK_NEEDS_FREE ≠ 0 := by
  rw [and_eq_of_high_eq h.high _ (by decide)]
  exact hw.needsFree

theorem Inv.notGlobal (h : Inv .block w s) (hw : OnHeap .block w) :
    s.word &&& BLOCK_IS_GLOBAL = 0 := by
  rw [and_eq_of_high_eq h.high _ (by decide)]
  exact hw.notGlobal rfl

/-- A thread with a reference sees a count. -/
theorem Inv.refcount_ne_zero (h : Inv o w s) (hpos : 0 < (s.threads i).refs) :
    refcount s.word ≠ 0 := by
  obtain ⟨_, _, _, hc⟩ := h.alive hpos
  have hl : latched ≠ 0 := by decide
  omega

/-- What is known of a thread at the place `pc`. -/
theorem Inv.ok_at {pc : Pc} (h : Inv o w s) (hpc : (s.threads i).pc = pc) :
    (⟨pc, (s.threads i).held⟩ : Owner).Ok o :=
  hpc ▸ h.thread i

theorem Inv.progress_at {pc : Pc} (h : Inv o w s) (hpc : (s.threads i).pc = pc)
    (hv : pc.afterVerdict) : pc.Progress o s.word s.events := by
  subst hpc
  exact (h.dying hv).2.2.1

omit [Fintype ι] in
theorem refs_at {pc : Pc} (hpc : (s.threads i).pc = pc) :
    (s.threads i).refs = (s.threads i).held + pc.inFlight := by
  rw [Owner.refs, hpc]

variable [DecidableEq ι]

theorem total_setThread (s : State ι) (i : ι) (x : Owner) :
    (s.setThread i x).total + (s.threads i).refs = s.total + x.refs := by
  have hrest : ∑ j ∈ Finset.univ.erase i, ((s.setThread i x).threads j).refs =
      ∑ j ∈ Finset.univ.erase i, (s.threads j).refs :=
    Finset.sum_congr rfl fun j hj => by rw [setThread_ne s x (Finset.ne_of_mem_erase hj)]
  have hnew := Finset.add_sum_erase Finset.univ (fun j => ((s.setThread i x).threads j).refs)
    (Finset.mem_univ i)
  have hold := Finset.add_sum_erase Finset.univ (fun j => (s.threads j).refs) (Finset.mem_univ i)
  simp only [setThread_self, hrest] at hnew
  simp only [total, ← hnew, ← hold]
  omega

/-! ## What an atomic step can do -/

/-- A step that changes neither the word nor the references of the thread. -/
theorem Inv.quiet (h : Inv o w s) (hrefs : x.refs = (s.threads i).refs) (hok : x.Ok o)
    (hbefore : ¬(s.threads i).pc.afterVerdict) (hafter : ¬x.pc.afterVerdict)
    (hfreed : ¬s.Freed) : Inv o w (s.setThread i x) := by
  have htotal := s.total_setThread i x
  have hsame : (s.setThread i x).total = s.total := by omega
  refine ⟨h.high, forall_setThread h.thread hok, ?_⟩
  rcases h.phase with ⟨hlive, hevents, hnone, hcount⟩ | ⟨j, hdead, hzero, hprogress, hother⟩ |
    ⟨hdead, hzero, hevents, hidle⟩
  · refine .alive hlive hevents
      (forall_setThread (P := fun y => ¬y.pc.afterVerdict) hnone hafter) ?_
    rw [hsame]
    exact hcount
  · have hji : j ≠ i := fun he => hbefore (he ▸ hprogress.afterVerdict)
    refine .dying j hdead (hsame.trans hzero) ?_ fun k hk => ?_
    · rw [setThread_ne s x hji]
      exact hprogress
    · by_cases hki : k = i
      · subst hki
        rw [setThread_self]
        exact hafter
      · rw [setThread_ne s x hki]
        exact hother k hk
  · exact absurd (h.freed_iff.2 ⟨hdead, hzero, hevents, hidle⟩) hfreed

/-- A step that takes a reference. -/
theorem Inv.take (h : Inv o w s) (hlive : isDeallocating s.word = false)
    (hrefs : x.refs = (s.threads i).refs + 1) (hok : x.Ok o) (hafter : ¬x.pc.afterVerdict)
    (hm : SameMeta v s.word) (hcount : refcount v = latched ∨
      (refcount s.word ≠ latched ∧ refcount v = refcount s.word + 1)) :
    Inv o w ({ s with word := v }.setThread i x) := by
  have htotal : ({ s with word := v }.setThread i x).total + (s.threads i).refs =
    s.total + x.refs := total_setThread { s with word := v } i x
  refine ⟨hm.high.trans h.high, forall_setThread h.thread hok, ?_⟩
  rcases h.phase with ⟨_, hevents, hnone, hc⟩ | ⟨j, hdead, _, _, _⟩ | ⟨hdead, _, _, _⟩
  · refine .alive (hm.dealloc.trans hlive) hevents
      (forall_setThread (P := fun y => ¬y.pc.afterVerdict) hnone hafter) ?_
    rw [setThread_word]
    show refcount v = latched ∨ refcount v = _ ∧ _
    omega
  · rw [hlive] at hdead
    cases hdead
  · rw [hlive] at hdead
    cases hdead

/-- A step that gives up a reference that is not the last. -/
theorem Inv.drop (h : Inv o w s) (hrefs : x.refs + 1 = (s.threads i).refs) (hok : x.Ok o)
    (hafter : ¬x.pc.afterVerdict) (hm : SameMeta v s.word)
    (hcount : refcount v = latched ∧ refcount s.word = latched ∨
      (refcount s.word ≠ latched ∧ refcount s.word = refcount v + 1 ∧ 0 < refcount v)) :
    Inv o w ({ s with word := v }.setThread i x) := by
  have htotal : ({ s with word := v }.setThread i x).total + (s.threads i).refs =
    s.total + x.refs := total_setThread { s with word := v } i x
  obtain ⟨hlive, hevents, hnone, hc⟩ := h.alive (i := i) (by omega)
  refine ⟨hm.high.trans h.high, forall_setThread h.thread hok, ?_⟩
  refine .alive (hm.dealloc.trans hlive) hevents
    (forall_setThread (P := fun y => ¬y.pc.afterVerdict) hnone hafter) ?_
  rw [setThread_word]
  show refcount v = latched ∨ refcount v = _ ∧ _
  omega

/-- The step that gives up the last reference. -/
theorem Inv.verdict (h : Inv o w s) (hx : x.pc = .helperTest)
    (hrefs : x.refs + 1 = (s.threads i).refs) (hone : refcount s.word = 1)
    (hdead : isDeallocating v = true) (hhigh : BlocksRuntime.high v = BlocksRuntime.high s.word) :
    Inv o w ({ s with word := v }.setThread i x) := by
  have htotal : ({ s with word := v }.setThread i x).total + (s.threads i).refs =
    s.total + x.refs := total_setThread { s with word := v } i x
  obtain ⟨_, hevents, hnone, hc⟩ := h.alive (i := i) (by omega)
  have hlatched : latched ≠ 1 := by decide
  have hok : x.Ok o := by
    unfold Owner.Ok
    rw [hx]
    trivial
  refine ⟨hhigh.trans h.high, forall_setThread h.thread hok, .dying i hdead (by omega) ?_ ?_⟩
  · rw [setThread_self, hx]
    exact hevents
  · intro j hj
    rw [setThread_ne _ x hj]
    exact hnone j

/-- A step of the thread with the verdict. -/
theorem Inv.advance {pc₀ pc : Pc} {events : List LifeEvent} (h : Inv o w s)
    (hpc : (s.threads i).pc = pc₀) (hv : pc₀.afterVerdict) (hflight : pc.inFlight = pc₀.inFlight)
    (hok : (⟨pc, (s.threads i).held⟩ : Owner).Ok o) (hprogress : pc.Progress o s.word events) :
    Inv o w ({ s with events := events }.goto i pc) := by
  subst hpc
  have hrefs : (⟨pc, (s.threads i).held⟩ : Owner).refs = (s.threads i).refs := by
    rw [Owner.refs, Owner.refs, hflight]
  have htotal : ({ s with events := events }.goto i pc).total + (s.threads i).refs =
    s.total + (⟨pc, (s.threads i).held⟩ : Owner).refs :=
      total_setThread { s with events := events } i _
  obtain ⟨hdead, hzero, _, hother⟩ := h.dying hv
  refine ⟨h.high, forall_setThread h.thread hok, .dying i hdead (by omega) ?_ ?_⟩
  · rw [State.goto, setThread_self]
    exact hprogress
  · intro j hj
    rw [State.goto, setThread_ne _ _ hj]
    exact hother j hj

/-- A thread without references, verdict or exclusion zone is not in a
call. -/
theorem idle_of_no_refs (hok : x.Ok o) (hrefs : x.refs = 0) (hv : ¬x.pc.afterVerdict)
    (hzone : ¬x.pc.inZone) : x.pc = .idle := by
  obtain ⟨pc, held⟩ := x
  have hheld : held = 0 := Nat.eq_zero_of_add_eq_zero_right hrefs
  have hflight : pc.inFlight = 0 := Nat.eq_zero_of_add_eq_zero_left hrefs
  subst hheld
  cases pc with
  | idle => rfl
  | copyNeedsFree => exact absurd hok (Nat.lt_irrefl 0)
  | byrefCopyRefcount => exact absurd hok (Nat.lt_irrefl 0)
  | byrefCopyNeedsFree => exact absurd hok (Nat.lt_irrefl 0)
  | incrRead => exact absurd hok (Nat.lt_irrefl 0)
  | incrSwap a => exact absurd hok.1 (Nat.lt_irrefl 0)
  | copyIsGlobal => exact hok.elim
  | assertFailed => exact hok.elim
  | stray => exact hok.elim
  | helperTest => exact absurd trivial hv
  | helper => exact absurd trivial hv
  | destruct => exact absurd trivial hv
  | free => exact absurd trivial hv
  | tryRead => exact absurd trivial hzone
  | trySwap a => exact absurd trivial hzone
  | isDeallocatingRead => exact absurd trivial hzone
  | _ => cases hflight

/-- The last step of the thread with the verdict. -/
theorem Inv.free (h : Inv o w s) (hpc : (s.threads i).pc = .free)
    (hzone : ∀ j, ¬(s.threads j).pc.inZone) : Inv o w ((s.emit .free).goto i .idle) := by
  have hv : (s.threads i).pc.afterVerdict := by
    rw [hpc]
    trivial
  obtain ⟨hdead, hzero, hprogress, hother⟩ := h.dying hv
  rw [hpc] at hprogress
  have hle := s.refs_le_total i
  have hrefs : (⟨.idle, (s.threads i).held⟩ : Owner).refs = (s.threads i).refs := by
    rw [Owner.refs, Owner.refs, hpc]
    rfl
  have htotal : ((s.emit .free).goto i .idle).total + (s.threads i).refs =
      s.total + (⟨.idle, (s.threads i).held⟩ : Owner).refs :=
    total_setThread (s.emit .free) i _
  refine ⟨h.high, forall_setThread h.thread (by trivial), .freed hdead (by omega) ?_ fun j => ?_⟩
  · show s.events ++ [.free] = _
    rw [show s.events = helperEvents s.word ++ destructEvents o from hprogress]
    rfl
  · by_cases hj : j = i
    · subst hj
      rw [State.goto, setThread_self]
    · rw [State.goto, setThread_ne _ _ hj]
      have hj0 := s.refs_le_total j
      have hnone : (s.threads j).refs = 0 := by omega
      exact idle_of_no_refs (h.thread j) hnone (hother j hj) (hzone j)

/-- A step that only leads on. -/
theorem Inv.goto {pc₀ pc : Pc} (h : Inv o w s) (hpc : (s.threads i).pc = pc₀) (hne : pc₀ ≠ .idle)
    (hflight : pc.inFlight = pc₀.inFlight) (hok : (⟨pc, (s.threads i).held⟩ : Owner).Ok o)
    (hbefore : ¬pc₀.afterVerdict) (hafter : ¬pc.afterVerdict) : Inv o w (s.goto i pc) := by
  subst hpc
  exact h.quiet (by rw [Owner.refs, Owner.refs, hflight]) hok hbefore hafter (h.not_freed hne)

/-- The loop of an increment ends: the thread has another reference. -/
theorem Inv.afterIncr (h : Inv o w s) (hheld : 0 < (s.threads i).held)
    (hflight : (s.threads i).pc.inFlight = 0) (hm : SameMeta v s.word)
    (hcount : refcount v = latched ∨
      (refcount s.word ≠ latched ∧ refcount v = refcount s.word + 1)) :
    Inv o w ({ s with word := v }.afterIncr o i) := by
  have hrefs : (s.threads i).refs = (s.threads i).held := by rw [Owner.refs, hflight, add_zero]
  obtain ⟨hlive, _⟩ := h.alive (i := i) (by omega)
  cases o with
  | block => exact h.take hlive (by rw [hrefs]; rfl) trivial id hm hcount
  | byref => exact h.take hlive (by rw [hrefs]; rfl) trivial id hm hcount

/-- The loop of `_Block_tryRetain` ends with a reference. -/
theorem Inv.afterTry (h : Inv o w s) (hlive : isDeallocating s.word = false)
    (hflight : (s.threads i).pc.inFlight = 0) (hm : SameMeta v s.word)
    (hcount : refcount v = latched ∨
      (refcount s.word ≠ latched ∧ refcount v = refcount s.word + 1)) :
    Inv o w ({ s with word := v }.afterTry i true) := by
  have hrefs : (s.threads i).refs = (s.threads i).held := by rw [Owner.refs, hflight, add_zero]
  exact h.take hlive (by rw [hrefs]; rfl) trivial id hm hcount

/-! ## The atomic steps -/

section

variable {t : State ι}

theorem Inv.incrRead (h : Inv o w s) (hpc : (s.threads i).pc = .incrRead)
    (hs : s.step o i = some t) : Inv o w t := by
  have hheld : 0 < (s.threads i).held := h.ok_at hpc
  rw [State.step, hpc] at hs
  cases hd : latchingIncrInt s.word with
  | exit r =>
    simp only [hd, Option.some.injEq] at hs
    subst hs
    exact h.afterIncr hheld (by rw [hpc]; rfl) (SameMeta.refl s.word) (Or.inl (incr_exit hd))
  | cas new r =>
    simp only [hd, Option.some.injEq] at hs
    subst hs
    exact h.goto hpc nofun rfl ⟨hheld, hd⟩ id id

theorem Inv.incrSwap {a : Swap Flags Flags} (h : Inv o w s) (hpc : (s.threads i).pc = .incrSwap a)
    (hs : s.step o i = some t) : Inv o w t := by
  obtain ⟨hheld, hd⟩ : 0 < (s.threads i).held ∧ latchingIncrInt a.old = .cas a.new a.result :=
    h.ok_at hpc
  rw [State.step, hpc] at hs
  by_cases hword : s.word = a.old
  · simp only [if_pos hword, Option.some.injEq] at hs
    subst hs
    obtain ⟨hc, hl, hm⟩ := incr_cas hd
    rw [← hword] at hc hl hm
    exact h.afterIncr hheld (by rw [hpc]; rfl) hm (Or.inr ⟨hl, hc⟩)
  · simp only [if_neg hword, Option.some.injEq] at hs
    subst hs
    exact h.goto hpc nofun rfl hheld id id

theorem Inv.decrRead (h : Inv o w s) (hpc : (s.threads i).pc = .decrRead)
    (hs : s.step o i = some t) : Inv o w t := by
  have hrefs : (s.threads i).refs = (s.threads i).held + 1 := refs_at hpc
  rw [State.step, hpc] at hs
  cases hd : latchingDecrIntShouldDeallocate s.word with
  | exit r =>
    simp only [hd, Option.some.injEq] at hs
    subst hs
    obtain ⟨rfl, hc⟩ := decr_exit hd
    have hl := hc.resolve_right (h.refcount_ne_zero (i := i) (by omega))
    exact h.drop hrefs.symm trivial id (SameMeta.refl s.word) (Or.inl ⟨hl, hl⟩)
  | cas new r =>
    simp only [hd, Option.some.injEq] at hs
    subst hs
    exact h.goto hpc nofun rfl hd id id

theorem Inv.decrSwap {a : Swap Flags Bool} (h : Inv o w s) (hpc : (s.threads i).pc = .decrSwap a)
    (hs : s.step o i = some t) : Inv o w t := by
  have hrefs : (s.threads i).refs = (s.threads i).held + 1 := refs_at hpc
  have hd : latchingDecrIntShouldDeallocate a.old = .cas a.new a.result := h.ok_at hpc
  obtain ⟨hlive, _⟩ := h.alive (i := i) (by omega)
  rw [State.step, hpc] at hs
  by_cases hword : s.word = a.old
  · simp only [if_pos hword, Option.some.injEq] at hs
    subst hs
    obtain ⟨hl, ⟨hr, hone, _, _, hdead, hhigh⟩ | ⟨hr, hc, hne, hm⟩⟩ := decr_cas hd
    · rw [← hword] at hone hhigh
      rw [hr]
      exact h.verdict rfl hrefs.symm hone hdead hhigh
    · rw [← hword] at hl hc hne hm
      rw [hr]
      have hge : 0 < refcount a.new := by
        by_contra h0
        exact hne ⟨by omega, hlive⟩
      exact h.drop hrefs.symm trivial id hm (Or.inr ⟨hl, hc, hge⟩)
  · simp only [if_neg hword, Option.some.injEq] at hs
    subst hs
    exact h.goto hpc nofun rfl trivial id id

theorem Inv.helperTest (h : Inv o w s) (hpc : (s.threads i).pc = .helperTest)
    (hs : s.step o i = some t) : Inv o w t := by
  have hevents : s.events = [] := h.progress_at hpc trivial
  rw [State.step, hpc] at hs
  by_cases hbit : s.word &&& BLOCK_HAS_COPY_DISPOSE ≠ 0
  · simp only [if_pos hbit, Option.some.injEq] at hs
    subst hs
    show Inv o w ({ s with events := s.events }.goto i .helper)
    exact h.advance hpc trivial rfl trivial ⟨hbit, hevents⟩
  · simp only [if_neg hbit, Option.some.injEq] at hs
    subst hs
    have hnone : helperEvents s.word = [] := if_neg hbit
    cases o with
    | block =>
      show Inv .block w ({ s with events := s.events }.goto i .destruct)
      exact h.advance hpc trivial rfl trivial ⟨rfl, by rw [hevents, hnone]⟩
    | byref =>
      show Inv .byref w ({ s with events := s.events }.goto i .free)
      refine h.advance hpc trivial rfl trivial ?_
      show s.events = helperEvents s.word ++ []
      rw [hevents, hnone, List.append_nil]

theorem Inv.helper (h : Inv o w s) (hpc : (s.threads i).pc = .helper)
    (hs : s.step o i = some t) : Inv o w t := by
  obtain ⟨hbit, hevents⟩ : _ ∧ s.events = [] := h.progress_at hpc trivial
  rw [State.step, hpc, Option.some.injEq] at hs
  subst hs
  have hhelper : s.events ++ [.helper] = helperEvents s.word := by
    rw [hevents, helperEvents, if_pos hbit, List.nil_append]
  cases o with
  | block => exact h.advance hpc trivial rfl trivial ⟨rfl, hhelper⟩
  | byref =>
    refine h.advance hpc trivial rfl trivial ?_
    show s.events ++ [.helper] = helperEvents s.word ++ []
    rw [hhelper, List.append_nil]

theorem Inv.destruct (h : Inv o w s) (hpc : (s.threads i).pc = .destruct)
    (hs : s.step o i = some t) : Inv o w t := by
  obtain ⟨ho, hevents⟩ : o = .block ∧ s.events = _ := h.progress_at hpc trivial
  subst ho
  rw [State.step, hpc, Option.some.injEq] at hs
  subst hs
  refine h.advance hpc trivial rfl trivial ?_
  show s.events ++ [.destructInstance] = helperEvents s.word ++ [.destructInstance]
  rw [hevents]

theorem Inv.tryRead (h : Inv o w s) (hpc : (s.threads i).pc = .tryRead)
    (hs : s.step o i = some t) : Inv o w t := by
  rw [State.step, hpc] at hs
  cases hd : latchingIncrIntNotDeallocating s.word with
  | exit r =>
    simp only [hd, Option.some.injEq] at hs
    subst hs
    rcases tryIncr_exit hd with ⟨rfl, _⟩ | ⟨rfl, hlive, hl⟩
    · exact h.goto hpc nofun rfl trivial id id
    · exact h.afterTry hlive (by rw [hpc]; rfl) (SameMeta.refl s.word) (Or.inl hl)
  | cas new r =>
    simp only [hd, Option.some.injEq] at hs
    subst hs
    exact h.goto hpc nofun rfl hd id id

theorem Inv.trySwap {a : Swap Flags Bool} (h : Inv o w s) (hpc : (s.threads i).pc = .trySwap a)
    (hs : s.step o i = some t) : Inv o w t := by
  have hd : latchingIncrIntNotDeallocating a.old = .cas a.new a.result := h.ok_at hpc
  rw [State.step, hpc] at hs
  by_cases hword : s.word = a.old
  · simp only [if_pos hword, Option.some.injEq] at hs
    subst hs
    obtain ⟨hr, hlive, hc, hl, hm⟩ := tryIncr_cas hd
    rw [← hword] at hlive hc hl hm
    rw [hr]
    exact h.afterTry hlive (by rw [hpc]; rfl) hm (Or.inr ⟨hl, hc⟩)
  · simp only [if_neg hword, Option.some.injEq] at hs
    subst hs
    exact h.goto hpc nofun rfl trivial id id

/-- An atomic step of a call keeps the invariant. -/
theorem Inv.step (hw : OnHeap o w) (h : Inv o w s) (hs : s.step o i = some t) : Inv o w t := by
  cases hpc : (s.threads i).pc with
  | incrRead => exact h.incrRead hpc hs
  | incrSwap a => exact h.incrSwap hpc hs
  | decrRead => exact h.decrRead hpc hs
  | decrSwap a => exact h.decrSwap hpc hs
  | helperTest => exact h.helperTest hpc hs
  | helper => exact h.helper hpc hs
  | destruct => exact h.destruct hpc hs
  | tryRead => exact h.tryRead hpc hs
  | trySwap a => exact h.trySwap hpc hs
  | copyIsGlobal => exact (h.ok_at hpc).elim
  | idle =>
    rw [State.step, hpc] at hs
    cases hs
  | assertFailed =>
    rw [State.step, hpc] at hs
    cases hs
  | stray =>
    rw [State.step, hpc] at hs
    cases hs
  | copyNeedsFree =>
    have hheld : 0 < (s.threads i).held := h.ok_at hpc
    rw [State.step, hpc] at hs
    simp only [if_pos (h.needsFree hw), Option.some.injEq] at hs
    exact hs ▸ h.goto hpc nofun rfl hheld id id
  | byrefCopyRefcount =>
    have hheld : 0 < (s.threads i).held := h.ok_at hpc
    have hrefs := refs_at hpc
    have hne : ¬(s.word &&& BLOCK_REFCOUNT_MASK = 0) := fun he =>
      h.refcount_ne_zero (i := i) (by omega) ((and_refcount_mask_eq_zero s.word).1 he)
    rw [State.step, hpc] at hs
    simp only [if_neg hne, Option.some.injEq] at hs
    exact hs ▸ h.goto hpc nofun rfl hheld id id
  | byrefCopyNeedsFree =>
    have hheld : 0 < (s.threads i).held := h.ok_at hpc
    rw [State.step, hpc] at hs
    simp only [if_pos (and_needsFree_eq (h.needsFree hw)), Option.some.injEq] at hs
    exact hs ▸ h.goto hpc nofun rfl hheld id id
  | byrefCopyReturn =>
    have hfreed : ¬s.Freed := h.not_freed (i := i) (by rw [hpc]; nofun)
    rw [State.step, hpc, Option.some.injEq] at hs
    exact hs ▸ h.quiet (refs_at hpc).symm trivial (by rw [hpc]; exact id) id hfreed
  | releaseIsGlobal =>
    have ho : o = .block := h.ok_at hpc
    subst ho
    have hglobal : ¬(s.word &&& BLOCK_IS_GLOBAL ≠ 0) := not_not.2 (h.notGlobal hw)
    rw [State.step, hpc] at hs
    simp only [if_neg hglobal, Option.some.injEq] at hs
    exact hs ▸ h.goto hpc nofun rfl trivial id id
  | releaseNeedsFree =>
    rw [State.step, hpc] at hs
    simp only [if_neg (h.needsFree hw), Option.some.injEq] at hs
    exact hs ▸ h.goto hpc nofun rfl trivial id id
  | byrefReleaseForwarding =>
    rw [State.step, hpc, Option.some.injEq] at hs
    exact hs ▸ h.goto hpc nofun rfl trivial id id
  | byrefReleaseNeedsFree =>
    have hneeds : s.word &&& BLOCK_BYREF_NEEDS_FREE ≠ 0 := h.needsFree hw
    rw [State.step, hpc] at hs
    simp only [if_pos hneeds, Option.some.injEq] at hs
    exact hs ▸ h.goto hpc nofun rfl trivial id id
  | byrefReleaseAssert =>
    -- The thread still has its reference, so the count that it reads is positive.
    have hrefs : (s.threads i).refs = (s.threads i).held + 1 := refs_at hpc
    have hne : ¬(s.word &&& BLOCK_REFCOUNT_MASK = 0) := fun he =>
      h.refcount_ne_zero (i := i) (by omega) ((and_refcount_mask_eq_zero s.word).1 he)
    rw [State.step, hpc] at hs
    simp only [if_neg hne, Option.some.injEq] at hs
    exact hs ▸ h.goto hpc nofun rfl trivial id id
  | free =>
    rw [State.step, hpc] at hs
    by_cases hzone : ∀ j, ¬(s.threads j).pc.inZone
    · simp only [if_pos hzone, Option.some.injEq] at hs
      exact hs ▸ h.free hpc hzone
    · simp only [if_neg hzone] at hs
      cases hs
  | isDeallocatingRead =>
    rw [State.step, hpc, Option.some.injEq] at hs
    exact hs ▸ h.goto hpc nofun rfl trivial id id

end

/-! ## Starting and handing over -/

/-- A call starts with what it needs. -/
theorem Inv.start {t : State ι} {call : ObjectCall} (h : Inv o w s)
    (hs : s.start o i call = some t) : Inv o w t := by
  unfold State.start at hs
  cases hpc : (s.threads i).pc with
  | idle =>
    have hrefs : (s.threads i).refs = (s.threads i).held := by
      rw [Owner.refs, hpc]
      rfl
    have hidle : ¬(s.threads i).pc.afterVerdict := by
      rw [hpc]
      exact id
    -- A thread that holds a reference knows that the object is not freed.
    have hfreed : 0 < (s.threads i).held → ¬s.Freed := by
      intro hheld hf
      have hzero := (h.freed_iff.1 hf).2.1
      have hle := s.refs_le_total i
      omega
    rw [hpc] at hs
    cases call with
    | copy =>
      by_cases hheld : 0 < (s.threads i).held
      · simp only [if_pos hheld, Option.some.injEq] at hs
        subst hs
        cases o with
        | block => exact h.quiet hrefs.symm hheld hidle id (hfreed hheld)
        | byref => exact h.quiet hrefs.symm hheld hidle id (hfreed hheld)
      · simp only [if_neg hheld] at hs
        cases hs
    | release =>
      by_cases hheld : 0 < (s.threads i).held
      · simp only [if_pos hheld, Option.some.injEq] at hs
        subst hs
        have hsame : (s.threads i).held - 1 + 1 = (s.threads i).refs := by omega
        cases o with
        | block => exact h.quiet hsame rfl hidle id (hfreed hheld)
        | byref => exact h.quiet hsame trivial hidle id (hfreed hheld)
      · simp only [if_neg hheld] at hs
        cases hs
    | tryRetain =>
      by_cases hzone : o = .block ∧ ¬s.Freed
      · simp only [if_pos hzone, Option.some.injEq] at hs
        subst hs
        exact h.quiet hrefs.symm trivial hidle id hzone.2
      · simp only [if_neg hzone] at hs
        cases hs
    | isDeallocating =>
      by_cases hzone : o = .block ∧ ¬s.Freed
      · simp only [if_pos hzone, Option.some.injEq] at hs
        subst hs
        exact h.quiet hrefs.symm trivial hidle id hzone.2
      · simp only [if_neg hzone] at hs
        cases hs
  | _ =>
    rw [hpc] at hs
    cases hs

/-- A thread may have more references than its place needs. -/
theorem ok_more (h : x.Ok o) : (⟨x.pc, x.held + 1⟩ : Owner).Ok o := by
  obtain ⟨pc, held⟩ := x
  cases pc with
  | copyNeedsFree => exact Nat.succ_pos held
  | byrefCopyRefcount => exact Nat.succ_pos held
  | byrefCopyNeedsFree => exact Nat.succ_pos held
  | incrRead => exact Nat.succ_pos held
  | incrSwap a => exact ⟨Nat.succ_pos held, h.2⟩
  | _ => exact h

/-- Handing over a reference changes no count. -/
theorem Inv.give {t : State ι} (h : Inv o w s) (hs : s.give i j = some t) : Inv o w t := by
  unfold State.give at hs
  cases hpc : (s.threads i).pc with
  | idle =>
    rw [hpc] at hs
    by_cases hheld : 0 < (s.threads i).held ∧ i ≠ j
    · simp only [if_pos hheld, Option.some.injEq] at hs
      subst hs
      obtain ⟨hpos, hij⟩ := hheld
      have hrefs : (s.threads i).refs = (s.threads i).held := by
        rw [Owner.refs, hpc]
        rfl
      obtain ⟨hlive, hevents, hnone, hc⟩ := h.alive (i := i) (by omega)
      have hfirst := s.total_setThread i ⟨.idle, (s.threads i).held - 1⟩
      have hsecond := (s.setThread i ⟨.idle, (s.threads i).held - 1⟩).total_setThread j
        ⟨(s.threads j).pc, (s.threads j).held + 1⟩
      rw [setThread_ne _ _ (Ne.symm hij)] at hsecond
      have hgiven : (⟨.idle, (s.threads i).held - 1⟩ : Owner).refs = (s.threads i).held - 1 := rfl
      have htaken : (⟨(s.threads j).pc, (s.threads j).held + 1⟩ : Owner).refs =
          (s.threads j).refs + 1 := Nat.add_right_comm _ _ _
      have hnone' := forall_setThread (P := fun y => ¬y.pc.afterVerdict)
        (x := ⟨.idle, (s.threads i).held - 1⟩) (i := i) hnone id
      refine ⟨h.high, forall_setThread (forall_setThread h.thread trivial) (ok_more (h.thread j)),
        .alive hlive hevents ?_ ?_⟩
      · exact forall_setThread (P := fun y => ¬y.pc.afterVerdict) hnone' (hnone j)
      · show refcount s.word = latched ∨ refcount s.word = _ ∧ _
        omega
    · simp only [if_neg hheld] at hs
      cases hs
  | _ =>
    rw [hpc] at hs
    cases hs

/-- Every action keeps the invariant. -/
theorem Inv.next {t : State ι} {a : Action ι} (hw : OnHeap o w) (h : Inv o w s)
    (hs : s.next o a = some t) : Inv o w t := by
  cases a with
  | start i call => exact h.start hs
  | step i => exact h.step hw hs
  | give i j => exact h.give hs

theorem Inv.reachable {t : State ι} (hw : OnHeap o w) (h : Inv o w s) (hr : Reachable o s t) :
    Inv o w t := by
  induction hr with
  | refl => exact h
  | next _ a hn ih => exact ih.next hw hn

/-! ## The result -/

/-- An object whose references the threads hold, between calls. -/
def initial (w : Flags) (held : ι → Nat) : State ι := ⟨w, fun i => ⟨.idle, held i⟩, []⟩

omit [DecidableEq ι] in
theorem inv_initial {held : ι → Nat} (hlive : isDeallocating w = false) (hpos : 0 < refcount w)
    (hcount : refcount w = latched ∨ refcount w = ∑ i, held i) : Inv o w (initial w held) := by
  have htotal : (initial w held).total = ∑ i, held i := rfl
  refine ⟨rfl, fun _ => trivial, .alive hlive rfl (fun _ => id) ?_⟩
  rw [htotal]
  show refcount w = latched ∨ refcount w = _ ∧ _
  omega

/-- What holds of a heap object at every point of its life. -/
structure Safe (o : HeapObject) (w : Flags) (s : State ι) : Prop where
  /-- A thread in a call finds the object: the next step of the thread, be it
  a read of the word or a swap, is before the object is freed. -/
  no_use_after_free : ∀ i, (s.threads i).pc ≠ .idle → ¬s.Freed
  /-- A freed object is not touched any more. -/
  freed_final : s.Freed → ∀ a, s.next o a = none
  /-- As long as a thread has a reference, nothing is taken apart. -/
  referenced : ∀ i, 0 < (s.threads i).refs → s.events = [] ∧ isDeallocating s.word = false
  /-- The helper, `_Block_destructInstance` and `free` happen once each at
  most, and in this order. -/
  order : s.events <+: lifecycle o w
  /-- One thread at most takes the object apart. -/
  one_verdict : ∀ i j, (s.threads i).pc.afterVerdict → (s.threads j).pc.afterVerdict → i = j
  /-- `os_assert` does not fail. -/
  no_assert : ∀ i, (s.threads i).pc ≠ .assertFailed ∧
    ((s.threads i).pc = .byrefReleaseAssert → s.word &&& BLOCK_REFCOUNT_MASK ≠ 0)
  /-- No call takes the object for one that is not on the heap. -/
  no_stray : ∀ i, (s.threads i).pc ≠ .stray ∧ (s.threads i).pc ≠ .copyIsGlobal
  /-- Once the object is being taken apart nobody can get a reference. -/
  dead : isDeallocating s.word = true → s.total = 0
  /-- When all references are given up and all calls have returned, the object
  has been taken apart completely, unless its count is latched. -/
  complete : s.total = 0 → (∀ i, (s.threads i).pc = .idle) → refcount s.word ≠ latched →
    s.events = lifecycle o w

theorem helperEvents_congr {v : Flags} (h : BlocksRuntime.high v = BlocksRuntime.high w) :
    helperEvents v = helperEvents w := by
  rw [helperEvents, and_eq_of_high_eq h _ (by decide), helperEvents]

theorem lifecycle_congr {v : Flags} (h : BlocksRuntime.high v = BlocksRuntime.high w) :
    lifecycle o v = lifecycle o w := by
  rw [lifecycle, helperEvents_congr h, lifecycle]

/-- Nothing is allowed on a freed object. -/
theorem Inv.next_freed (h : Inv o w s) (hf : s.Freed) (a : Action ι) : s.next o a = none := by
  obtain ⟨_, hzero, _, hidle⟩ := h.freed_iff.1 hf
  have hheld : ∀ i, ¬0 < (s.threads i).held := by
    intro i
    have hle := s.refs_le_total i
    have hrefs : (s.threads i).held ≤ (s.threads i).refs := Nat.le_add_right _ _
    omega
  cases a with
  | start i call =>
    unfold State.next State.start
    simp only [hidle i, if_neg (hheld i)]
    cases call <;> simp [hf]
  | step i =>
    unfold State.next State.step
    simp only [hidle i]
  | give i j =>
    have hno : ¬(0 < (s.threads i).held ∧ i ≠ j) := fun he => hheld i he.1
    unfold State.next State.give
    simp only [hidle i, if_neg hno]

theorem Inv.safe (h : Inv o w s) : Safe o w s := by
  have hlife : lifecycle o s.word = lifecycle o w := lifecycle_congr h.high
  refine ⟨fun i => h.not_freed, h.next_freed, fun i hpos => ?_, ?_, fun i j hi hj => ?_,
    fun i => ⟨fun hpc => h.ok_at hpc, fun hpc hz => ?_⟩,
    fun i => ⟨fun hpc => h.ok_at hpc, fun hpc => h.ok_at hpc⟩, fun hdead => ?_,
    fun hzero hidle hl => ?_⟩
  · obtain ⟨hlive, hevents, _⟩ := h.alive hpos
    exact ⟨hevents, hlive⟩
  · rw [← hlife]
    rcases h.phase with ⟨_, hevents, _, _⟩ | ⟨_, _, _, hprogress, _⟩ | ⟨_, _, hevents, _⟩
    · rw [hevents]
      exact List.nil_prefix
    · exact hprogress.not_freed.2
    · rw [hevents]
  · obtain ⟨_, _, _, hother⟩ := h.dying hi
    by_contra hne
    exact hother j (Ne.symm hne) hj
  · have hrefs : (s.threads i).refs = (s.threads i).held + 1 := refs_at hpc
    exact h.refcount_ne_zero (i := i) (by omega) ((and_refcount_mask_eq_zero s.word).1 hz)
  · rcases h.phase with ⟨hlive, _, _, _⟩ | ⟨_, _, hzero, _, _⟩ | ⟨_, hzero, _, _⟩
    · rw [hlive] at hdead
      cases hdead
    · exact hzero
    · exact hzero
  · rcases h.phase with ⟨_, _, _, hc⟩ | ⟨i, _, _, hprogress, _⟩ | ⟨_, _, hevents, _⟩
    · omega
    · rw [hidle i] at hprogress
      cases hprogress
    · rw [hevents, hlife]

/-- Concurrent lifetime safety of a heap object.  Any number of threads share
a block, or a `__block` record that has moved to the heap, and start out with
all references to it. -/
theorem lifetime_safety {held : ι → Nat} (hw : OnHeap o w) (hlive : isDeallocating w = false)
    (hpos : 0 < refcount w) (hcount : refcount w = latched ∨ refcount w = ∑ i, held i)
    (hr : Reachable o (initial w held) s) : Safe o w s :=
  ((inv_initial hlive hpos hcount).reachable hw hr).safe

end

end State

/-! ## The objects of a program -/

section

variable {env : Env} {m : Mem} {s : Client} {scope : Finset Addr} {w : Multiset Ref} {r : Ref}
  {v : Flags} {accesses : List Access} {ι : Type} [Fintype ι] [DecidableEq ι]

/-- What kind of heap object a reference is to. -/
def Ref.heapObject : Ref → HeapObject
  | .block _ => .block
  | .byref _ => .byref
  | .object _ => .block

/-- The records of a disciplined memory have the flags of heap objects. -/
theorem Disciplined.onHeap (hd : Disciplined m scope w) (hv : heapFlags m r = some v) :
    State.OnHeap r.heapObject v := by
  cases r with
  | block a =>
    simp only [heapFlags, Option.map_eq_some_iff, Option.filter_eq_some_iff,
      decide_eq_true_eq] at hv
    obtain ⟨c, ⟨hc, hheap⟩, rfl⟩ := hv
    have hok := hd.rep.block_ok a c hc
    refine ⟨hok.needsFree.2 hheap, fun _ => ?_⟩
    by_contra hne
    have hglobal := hok.isGlobal.1 hne
    rw [hheap] at hglobal
    cases hglobal
  | byref a =>
    simp only [heapFlags, Option.map_eq_some_iff, Option.filter_eq_some_iff,
      decide_eq_true_eq] at hv
    obtain ⟨c, ⟨hc, hheap⟩, rfl⟩ := hv
    have hok := hd.rep.byref_ok a c hc
    exact ⟨hok.needsFree.2 hheap, fun ho => by cases ho⟩
  | object o => cases hv

/-- At any point of a run, any number of threads may share out the references
to a heap record among them. -/
theorem Run.lifetime (hmalloc : ∀ k, env.mallocOk k = true) (h : Run env .start accesses s)
    (hv : heapFlags s.mem r = some v) {held : ι → Nat} (hheld : ∑ i, held i = s.references r)
    {t : State ι} (ht : State.Reachable r.heapObject (State.initial v held) t) :
    State.Safe r.heapObject v t := by
  have hd := h.disciplined hmalloc
  obtain ⟨hlive, n, hn, hc⟩ := hd.node_of_heapFlags hv
  have hpos := hd.positive r n hn
  refine State.Inv.safe (State.Inv.reachable (hd.onHeap hv) ?_ ht)
  refine State.inv_initial hlive (by omega) ?_
  rw [← hc, hheld, ← hd.refs_eq]
  exact hd.counted.counted r n hn

end

/-! ## A race -/

/-- Perform a list of actions. -/
def State.perform {ι : Type} [DecidableEq ι] [Fintype ι] (o : HeapObject) (s : State ι) :
    List (Action ι) → Option (State ι)
  | [] => some s
  | a :: as => (s.next o a).bind fun t => t.perform o as

theorem State.reachable_perform {ι : Type} [DecidableEq ι] [Fintype ι] {o : HeapObject}
    {s₀ s t : State ι} {as : List (Action ι)} (hs : Reachable o s₀ s)
    (h : s.perform o as = some t) : Reachable o s₀ t := by
  induction as generalizing s with
  | nil =>
    rw [perform, Option.some.injEq] at h
    exact h ▸ hs
  | cons a as ih =>
    rw [perform, Option.bind_eq_some_iff] at h
    obtain ⟨u, hu, ht⟩ := h
    exact ih (hs.next a hu) ht

/-- One thread gives up the last reference to a block while another tries to
retain it.  The release swaps first, and `free` waits for the other. -/
def releaseRace : List (Action (Fin 2)) :=
  [.start 0 .release, .start 1 .tryRetain, .step 0, .step 0, .step 0, .step 1, .step 0, .step 0,
    .step 0, .step 0, .step 1, .step 1, .step 0]

theorem lifetime_safety_race :
    ∃ s, (State.initial 0x03000002 fun i : Fin 2 => if i = 0 then 1 else 0).perform .block
        releaseRace = some s ∧
      s.events = [.helper, .destructInstance, .free] ∧ State.Safe .block 0x03000002 s := by
  refine ⟨_, rfl, rfl, ?_⟩
  have hrace : State.Reachable .block
      (State.initial 0x03000002 fun i : Fin 2 => if i = 0 then 1 else 0) _ :=
    State.reachable_perform .refl (show State.perform .block _ releaseRace = some _ from rfl)
  exact State.lifetime_safety ⟨by decide, fun _ => by decide⟩ (by decide) (by decide)
    (Or.inr (by decide)) hrace

end BlocksRuntime
