import BlocksRuntime.Runtime
import Mathlib.Algebra.Order.BigOperators.Group.Finset

/-!
# Release cascades on every heap

A release may free an object, whose helper releases others, and so on.  This
ends on every heap, whatever the counts say: the deallocating bit is set before
the helper is called and is never cleared, so that an object gets its verdict
once.

* `cascade` is a call of `_Block_release` or `_Block_object_dispose` with
  helpers that are any lists of calls.  A freed record keeps its last flags
  word, and a run in which a helper or a `free` happens a second time is stopped.
* `Cascade` is what a part of a run does.  Its two ledgers say that a helper
  call or a `free` is paid for with a clear deallocating bit.
* `liveCount`, the number of clear deallocating bits, bounds the depth.
-/

namespace BlocksRuntime

/-! ## Helpers and freed records -/

/-- A call that a dispose or destroy helper makes for one field. -/
inductive ReleaseCall where
  | release (arg : Addr)
  | dispose (object : Addr) (flags : Flags)
  deriving DecidableEq, Repr

/-- The calls of the dispose helper of each block and of the destroy helper of
each `__block` record. -/
structure Helpers where
  dispose : Addr → List ReleaseCall
  destroy : Addr → List ReleaseCall

/-- The objects whose helper was called. -/
def helperCalls (events : List Event) : List Ref :=
  events.filterMap fun e =>
    match e with
    | .disposeHelper _ aBlock => some (.block aBlock)
    | .byrefDestroy byref => some (.byref byref)
    | _ => none

/-- The objects that were freed. -/
def frees (events : List Event) : List Ref :=
  events.filterMap fun e =>
    match e with
    | .freeBlock aBlock => some (.block aBlock)
    | .freeByref byref => some (.byref byref)
    | _ => none

/-- The helper of each object is called at most once, and each object is freed
at most once. -/
def Once (events : List Event) : Prop := (helperCalls events).Nodup ∧ (frees events).Nodup

instance (events : List Event) : Decidable (Once events) := by
  unfold Once
  infer_instance

/-- Stop if something happened twice since `start`. -/
def checkOnce (start : Mem) (a : Addr) : M Unit := fun s =>
  if Once (newEvents start s) then .ok ((), s) else .error (.dangling a)

/-- `_Block_release`, where `free` is the last thing that it does. -/
def blockReleaseWith (free disposeHelper destructInstance : Addr → M Unit) (arg : Addr) :
    M Unit := do
  if arg = NULL then
    return
  let aBlock ← loadBlock arg
  if aBlock.flags &&& BLOCK_IS_GLOBAL ≠ 0 then
    return
  if aBlock.flags &&& BLOCK_NEEDS_FREE = 0 then
    return
  if ← loopBlockFlags arg latchingDecrIntShouldDeallocate then
    blockCallDisposeHelper disposeHelper arg
    destructInstance arg
    free arg

/-- `_Block_byref_release`, where `free` is the last thing that it does. -/
def blockByrefReleaseWith (free byrefDestroy : Addr → M Unit) (arg : Addr) : M Unit := do
  let record ← loadByref arg
  let byref := record.forwarding
  let target ← loadByref byref
  if target.flags &&& BLOCK_BYREF_NEEDS_FREE ≠ 0 then
    let refcount := target.flags &&& BLOCK_REFCOUNT_MASK
    if refcount = 0 then
      fault .assertFailed
    if ← loopByrefFlags byref latchingDecrIntShouldDeallocate then
      let target ← loadByref byref
      if target.flags &&& BLOCK_BYREF_HAS_COPY_DISPOSE ≠ 0 then
        log (.byrefDestroy byref)
        byrefDestroy byref
      free byref

theorem blockReleaseBody_eq_with : blockReleaseBody = blockReleaseWith freeBlock := rfl

theorem blockByrefReleaseBody_eq_with :
    blockByrefReleaseBody = blockByrefReleaseWith freeByref := rfl

/-- `free` of a record that stays readable. -/
def freeKept (start : Mem) (e : Addr → Event) (a : Addr) : M Unit := do
  log (e a)
  checkOnce start a

/-- The calls of a helper. -/
def runCalls (run : ReleaseCall → M Unit) : List ReleaseCall → M Unit
  | [] => pure ()
  | call :: calls => do
    run call
    runCalls run calls

/-- The helper of the object `a`, which makes these calls. -/
def helperCalling (start : Mem) (run : ReleaseCall → M Unit) (calls : Addr → List ReleaseCall)
    (a : Addr) : M Unit := do
  checkOnce start a
  runCalls run (calls a)

/-- A call with at most `n` nested ones, in a run that began at `start`. -/
def cascadeN (helpers : Helpers) (start : Mem) : Nat → ReleaseCall → M Unit
  | 0, _ => fault .outOfFuel
  | n + 1, call =>
    let blockRelease := blockReleaseWith (freeKept start .freeBlock)
      (helperCalling start (cascadeN helpers start n) helpers.dispose)
      fun a => log (.destructInstance a)
    let blockByrefRelease := blockByrefReleaseWith (freeKept start .freeByref)
      (helperCalling start (cascadeN helpers start n) helpers.destroy)
    match call with
    | .release arg => blockRelease arg
    | .dispose object flags =>
      blockObjectDisposeBody (fun o => log (.releaseObject o)) blockRelease blockByrefRelease
        object flags

/-- A call of `_Block_release` or `_Block_object_dispose`. -/
def cascade (helpers : Helpers) (call : ReleaseCall) : M Unit := fun s =>
  cascadeN helpers s (releaseFuel s + 1) call s

/-! ## Heaps -/

/-- The pointers that a call follows lead to records. -/
def ReleaseCall.Valid (s : Mem) : ReleaseCall → Prop
  | .release arg => arg = NULL ∨ s.blocks arg ≠ none
  | .dispose object flags =>
    (flags &&& BLOCK_ALL_COPY_DISPOSE_FLAGS = BLOCK_FIELD_IS_BLOCK →
      object = NULL ∨ s.blocks object ≠ none) ∧
    (flags &&& BLOCK_ALL_COPY_DISPOSE_FLAGS = BLOCK_FIELD_IS_BYREF ||| BLOCK_FIELD_IS_WEAK ∨
      flags &&& BLOCK_ALL_COPY_DISPOSE_FLAGS = BLOCK_FIELD_IS_BYREF → s.byrefs object ≠ none)

/-- A heap without dangling pointers.  Nothing is said about the counts. -/
structure ClosedHeap (helpers : Helpers) (s : Mem) : Prop where
  block_lt : ∀ a c, s.blocks a = some c → a < s.next
  byref_lt : ∀ a c, s.byrefs a = some c → a < s.next
  descriptor : ∀ a c, s.blocks a = some c → c.layout.flags &&& BLOCK_HAS_COPY_DISPOSE ≠ 0 →
    4 ≤ c.layout.descriptor.length
  forwarding : ∀ a c, s.byrefs a = some c → s.byrefs c.byref.forwarding ≠ none
  dispose : ∀ a, s.blocks a ≠ none → ∀ call ∈ helpers.dispose a, call.Valid s
  destroy : ∀ a, s.byrefs a ≠ none → ∀ call ∈ helpers.destroy a, call.Valid s

/-- The flags word of a block or a `__block` record. -/
def flagsOf (s : Mem) : Ref → Option Flags
  | .block a => (s.blocks a).map fun c => c.layout.flags
  | .byref a => (s.byrefs a).map fun c => c.byref.flags
  | .object _ => none

/-- One for an object whose deallocating bit is clear. -/
def live (s : Mem) (r : Ref) : Nat :=
  match flagsOf s r with
  | some w => if isDeallocating w then 0 else 1
  | none => 0

/-- The number of objects whose deallocating bit is clear. -/
def liveCount (s : Mem) : Nat :=
  ∑ a ∈ Finset.range s.next, (live s (.block a) + live s (.byref a))

/-- What a part of a run does between `s` and `t`. -/
structure Cascade (s t : Mem) (events : List Event) : Prop where
  trace : t.trace = s.trace ++ events
  next : t.next = s.next
  block : ∀ a c, s.blocks a = some c →
    ∃ w, t.blocks a = some (c.withFlags w) ∧ high w = high c.layout.flags
  byref : ∀ a c, s.byrefs a = some c →
    ∃ w, t.byrefs a = some (c.withFlags w) ∧ high w = high c.byref.flags
  helpers : ∀ r, (helperCalls events).count r + live t r ≤ live s r
  frees : ∀ r, (frees events).count r + live t r ≤ live s r

section

variable {helpers : Helpers} {start s t u : Mem} {ev ev' : List Event} {a : Addr} {r : Ref}

theorem live_le_one (s : Mem) (r : Ref) : live s r ≤ 1 := by
  unfold live
  split
  · split
    · exact Nat.zero_le 1
    · exact Nat.le_refl 1
  · exact Nat.zero_le 1

theorem live_eq_one {w : Flags} (hw : flagsOf s r = some w) (h : isDeallocating w = false) :
    live s r = 1 := by
  simp only [live, hw, h, Bool.false_eq_true, if_false]

theorem live_eq_zero {w : Flags} (hw : flagsOf s r = some w) (h : isDeallocating w = true) :
    live s r = 0 := by
  simp only [live, hw, h, if_true]

theorem live_congr (h : flagsOf t r = flagsOf s r) : live t r = live s r := by
  rw [live, h, live]

/-- A store that does not clear the deallocating bit. -/
theorem live_mono {v w : Flags} (hv : flagsOf s r = some v) (hw : flagsOf t r = some w)
    (hbit : isDeallocating v = true → isDeallocating w = true) : live t r ≤ live s r := by
  cases hd : isDeallocating w with
  | true =>
    rw [live_eq_zero hw hd]
    exact Nat.zero_le _
  | false =>
    have hd' : isDeallocating v = false := by
      rw [← Bool.not_eq_true]
      exact fun h => by simp [hbit h] at hd
    rw [live_eq_one hw hd, live_eq_one hv hd']

theorem helperCalls_append (l k : List Event) :
    helperCalls (l ++ k) = helperCalls l ++ helperCalls k := by
  simp [helperCalls]

theorem frees_append (l k : List Event) : frees (l ++ k) = frees l ++ frees k := by
  simp [frees]

/-! ## The ledgers -/

theorem Cascade.refl (s : Mem) : Cascade s s [] where
  trace := (List.append_nil _).symm
  next := rfl
  block _ c hc := ⟨c.layout.flags, hc, rfl⟩
  byref _ c hc := ⟨c.byref.flags, hc, rfl⟩
  helpers _ := (Nat.zero_add _).le
  frees _ := (Nat.zero_add _).le

theorem Cascade.trans (h : Cascade s t ev) (h' : Cascade t u ev') :
    Cascade s u (ev ++ ev') where
  trace := by rw [h'.trace, h.trace, List.append_assoc]
  next := h'.next.trans h.next
  block a c hc := by
    obtain ⟨w, hw, hhigh⟩ := h.block a c hc
    obtain ⟨v, hv, hhigh'⟩ := h'.block a _ hw
    exact ⟨v, hv, hhigh'.trans hhigh⟩
  byref a c hc := by
    obtain ⟨w, hw, hhigh⟩ := h.byref a c hc
    obtain ⟨v, hv, hhigh'⟩ := h'.byref a _ hw
    exact ⟨v, hv, hhigh'.trans hhigh⟩
  helpers r := by
    have hfirst := h.helpers r
    have hrest := h'.helpers r
    rw [helperCalls_append, List.count_append]
    omega
  frees r := by
    have hfirst := h.frees r
    have hrest := h'.frees r
    rw [frees_append, List.count_append]
    omega

/-- A run pays with a clear bit for each helper call and each `free`, so there is
one for each object. -/
theorem Cascade.once (h : Cascade s t ev) : Once ev := by
  refine ⟨List.nodup_iff_count_le_one.2 fun r => ?_, List.nodup_iff_count_le_one.2 fun r => ?_⟩
  · have hpaid := h.helpers r
    have hone := live_le_one s r
    omega
  · have hpaid := h.frees r
    have hone := live_le_one s r
    omega

theorem checkOnce_ok (h : Cascade start s ev) (a : Addr) : checkOnce start a s = .ok ((), s) := by
  unfold checkOnce
  rw [newEvents_append h.trace, if_pos h.once]

theorem Cascade.live_le (h : Cascade s t ev) (r : Ref) : live t r ≤ live s r :=
  Nat.le_trans (Nat.le_add_left _ _) (h.helpers r)

theorem Cascade.liveCount_le (h : Cascade s t ev) : liveCount t ≤ liveCount s := by
  unfold liveCount
  rw [h.next]
  exact Finset.sum_le_sum fun a _ => Nat.add_le_add (h.live_le _) (h.live_le _)

/-- A verdict lowers the number of live objects. -/
theorem Cascade.liveCount_lt (h : Cascade s t ev) (hlt : a < s.next)
    (hr : r = .block a ∨ r = .byref a) (hs : live s r = 1) (ht : live t r = 0) :
    liveCount t < liveCount s := by
  unfold liveCount
  rw [h.next]
  refine Finset.sum_lt_sum (fun b _ => Nat.add_le_add (h.live_le _) (h.live_le _))
    ⟨a, Finset.mem_range.2 hlt, ?_⟩
  have hblock := h.live_le (.block a)
  have hbyref := h.live_le (.byref a)
  rcases hr with rfl | rfl
  · omega
  · omega

theorem liveCount_le (s : Mem) : liveCount s ≤ releaseFuel s := by
  have hle : liveCount s ≤ ∑ _ ∈ Finset.range s.next, 2 :=
    Finset.sum_le_sum fun a _ => Nat.add_le_add (live_le_one s _) (live_le_one s _)
  rwa [Finset.sum_const_nat fun _ _ => rfl, Finset.card_range, Nat.mul_comm] at hle

/-! ## The steps -/

/-- An event that is paid for. -/
theorem Cascade.event (h : Cascade s t ev) {e : Event}
    (hhelpers : ∀ r, (helperCalls ev).count r + (helperCalls [e]).count r + live t r ≤ live s r)
    (hfrees : ∀ r, (BlocksRuntime.frees ev).count r + (BlocksRuntime.frees [e]).count r +
      live t r ≤ live s r) :
    Cascade s (t.log e) (ev ++ [e]) where
  trace := by rw [Mem.log_trace, h.trace, List.append_assoc]
  next := h.next
  block := h.block
  byref := h.byref
  helpers r := by
    rw [helperCalls_append, List.count_append]
    exact hhelpers r
  frees r := by
    rw [frees_append, List.count_append]
    exact hfrees r

/-- An event that is no helper call and no `free`. -/
theorem Cascade.quiet (h : Cascade s t ev) {e : Event} (hhelpers : helperCalls [e] = [])
    (hfrees : BlocksRuntime.frees [e] = []) : Cascade s (t.log e) (ev ++ [e]) :=
  h.event (fun r => by rw [hhelpers]; exact h.helpers r) fun r => by rw [hfrees]; exact h.frees r

/-- The helper of an object that has got its verdict. -/
theorem Cascade.helper (h : Cascade s t ev) {e : Event} (he : helperCalls [e] = [r])
    (hfrees : BlocksRuntime.frees [e] = []) (hs : live s r = 1) (ht : live t r = 0)
    (hnone : (helperCalls ev).count r = 0) : Cascade s (t.log e) (ev ++ [e]) := by
  refine h.event (fun q => ?_) fun q => by rw [hfrees]; exact h.frees q
  have hpaid := h.helpers q
  rw [he, List.count_singleton]
  by_cases hq : r = q
  · subst hq
    rw [hs, ht, hnone, if_pos (by simp)]
  · rw [if_neg (by simpa using hq)]
    exact hpaid

/-- `free` of an object that has got its verdict. -/
theorem Cascade.free (h : Cascade s t ev) {e : Event} (he : BlocksRuntime.frees [e] = [r])
    (hhelpers : helperCalls [e] = []) (hs : live s r = 1) (ht : live t r = 0)
    (hnone : (BlocksRuntime.frees ev).count r = 0) : Cascade s (t.log e) (ev ++ [e]) := by
  refine h.event (fun q => by rw [hhelpers]; exact h.helpers q) fun q => ?_
  have hpaid := h.frees q
  rw [he, List.count_singleton]
  by_cases hq : r = q
  · subst hq
    rw [hs, ht, hnone, if_pos (by simp)]
  · rw [if_neg (by simpa using hq)]
    exact hpaid

/-- A store of flags words that clears no deallocating bit. -/
theorem Cascade.store (htrace : t.trace = s.trace) (hnext : t.next = s.next)
    (hblock : ∀ a c, s.blocks a = some c →
      ∃ w, t.blocks a = some (c.withFlags w) ∧ high w = high c.layout.flags)
    (hbyref : ∀ a c, s.byrefs a = some c →
      ∃ w, t.byrefs a = some (c.withFlags w) ∧ high w = high c.byref.flags)
    (hlive : ∀ r, live t r ≤ live s r) : Cascade s t [] where
  trace := htrace.trans (List.append_nil _).symm
  next := hnext
  block := hblock
  byref := hbyref
  helpers r := (Nat.zero_add _).trans_le (hlive r)
  frees r := (Nat.zero_add _).trans_le (hlive r)

/-- The flags word of a block changes, and its deallocating bit is not cleared. -/
theorem cascade_setBlock {c : BlockCell} {w : Flags} (hc : s.blocks a = some c)
    (hw : high w = high c.layout.flags)
    (hbit : isDeallocating c.layout.flags = true → isDeallocating w = true) :
    Cascade s (s.setBlock a (c.withFlags w)) [] := by
  have hself := Mem.setBlock_blocks_self s a (c.withFlags w)
  refine .store rfl rfl (fun b d hd => ?_) (fun _ d hd => ⟨d.byref.flags, hd, rfl⟩) fun r => ?_
  · rcases Mem.setBlock_cases (c.withFlags w) hc hd with ⟨_, rfl, h⟩ | ⟨_, hother⟩
    · exact ⟨w, h, hw⟩
    · exact ⟨d.layout.flags, hother, rfl⟩
  · by_cases hr : r = .block a
    · subst hr
      exact live_mono (by simp only [flagsOf, hc]; rfl) (by simp only [flagsOf, hself]; rfl) hbit
    · refine (live_congr ?_).le
      cases r with
      | block b =>
        have hba : b ≠ a := fun h => hr (congrArg Ref.block h)
        simp only [flagsOf, Mem.setBlock_blocks_ne s _ hba]
      | byref b => rfl
      | object o => rfl

/-- The flags word of a record changes, and its deallocating bit is not cleared. -/
theorem cascade_setByref {c : ByrefCell} {w : Flags} (hc : s.byrefs a = some c)
    (hw : high w = high c.byref.flags)
    (hbit : isDeallocating c.byref.flags = true → isDeallocating w = true) :
    Cascade s (s.setByref a (c.withFlags w)) [] := by
  have hself := Mem.setByref_byrefs_self s a (c.withFlags w)
  refine .store rfl rfl (fun _ d hd => ⟨d.layout.flags, hd, rfl⟩) (fun b d hd => ?_) fun r => ?_
  · rcases Mem.setByref_cases (c.withFlags w) hc hd with ⟨_, rfl, h⟩ | ⟨_, hother⟩
    · exact ⟨w, h, hw⟩
    · exact ⟨d.byref.flags, hother, rfl⟩
  · by_cases hr : r = .byref a
    · subst hr
      exact live_mono (by simp only [flagsOf, hc]; rfl) (by simp only [flagsOf, hself]; rfl) hbit
    · refine (live_congr ?_).le
      cases r with
      | block b => rfl
      | byref b =>
        have hba : b ≠ a := fun h => hr (congrArg Ref.byref h)
        simp only [flagsOf, Mem.setByref_byrefs_ne s _ hba]
      | object o => rfl

/-! ## An object that has got its verdict -/

/-- The object `r` got its verdict between `s` and `t`, and is not freed yet. -/
structure Dying (r : Ref) (s t : Mem) (events : List Event) : Prop where
  cascade : Cascade s t events
  was_live : live s r = 1
  dead : live t r = 0
  not_freed : (frees events).count r = 0

theorem Dying.trans (h : Dying r s t ev) (h' : Cascade t u ev') : Dying r s u (ev ++ ev') where
  cascade := h.cascade.trans h'
  was_live := h.was_live
  dead := Nat.le_zero.1 (Nat.le_trans (h'.live_le r) h.dead.le)
  not_freed := by
    have hpaid := h'.frees r
    rw [h.dead] at hpaid
    rw [frees_append, List.count_append, h.not_freed]
    omega

/-- The run returns, or it stops at `os_assert`. -/
def Ends (s : Mem) (run : Except Fault (Unit × Mem)) : Prop :=
  (∃ t ev, run = .ok ((), t) ∧ Cascade s t ev) ∨ run = .error .assertFailed

/-- Nested calls end when the depth suffices. -/
def CallsEnd (start : Mem) (n : Nat) (run : M Unit) : Prop :=
  ∀ s ev, Cascade start s ev → liveCount s < n → Ends s (run s)

variable {n : Nat} {run : ReleaseCall → M Unit} {calls : Addr → List ReleaseCall}

theorem runCalls_end {l : List ReleaseCall} (h : ∀ call ∈ l, CallsEnd start n (run call)) :
    CallsEnd start n (runCalls run l) := by
  induction l with
  | nil => exact fun s _ _ _ => Or.inl ⟨s, [], rfl, Cascade.refl s⟩
  | cons call l ih =>
    intro s ev hs hlt
    have hrest := ih fun c hc => h c (List.mem_cons_of_mem call hc)
    rcases h call List.mem_cons_self s ev hs hlt with ⟨t, ev₁, hrun, ht⟩ | hrun
    · rcases hrest t _ (hs.trans ht) (Nat.lt_of_le_of_lt ht.liveCount_le hlt) with
        ⟨u, ev₂, hrun', hu⟩ | hrun'
      · exact Or.inl ⟨u, _, (bind_ok hrun).trans hrun', ht.trans hu⟩
      · exact Or.inr ((bind_ok hrun).trans hrun')
    · exact Or.inr (bind_error hrun)

/-- The helper of an object that has just got its verdict. -/
theorem helperCalling_ends {e : Event} (hstart : Cascade start s ev) (hd : Dying r s t [])
    (he : helperCalls [e] = [r]) (hfrees : frees [e] = [])
    (hcalls : CallsEnd start n (runCalls run (calls a))) (hlt : liveCount t < n) :
    (∃ u ev', helperCalling start run calls a (t.log e) = .ok ((), u) ∧ Dying r s u ev') ∨
      helperCalling start run calls a (t.log e) = .error .assertFailed := by
  have hlog : Dying r s (t.log e) [e] :=
    ⟨hd.cascade.helper he hfrees hd.was_live hd.dead rfl, hd.was_live, hd.dead, by simp [hfrees]⟩
  have hnow := hstart.trans hlog.cascade
  unfold helperCalling
  rw [bind_ok (checkOnce_ok hnow a)]
  exact (hcalls _ _ hnow hlt).imp
    (fun ⟨u, ev', hrun, hu⟩ => ⟨u, _, hrun, hlog.trans hu⟩) id

/-- The end of an object. -/
theorem freeKept_ends {e : Addr → Event} (hstart : Cascade start s ev) (hd : Dying r s t ev')
    (he : frees [e a] = [r]) (hhelpers : helperCalls [e a] = []) :
    Ends s (freeKept start e a t) := by
  have hfreed := hd.cascade.free he hhelpers hd.was_live hd.dead hd.not_freed
  unfold freeKept
  rw [bind_ok (log_apply _ _), checkOnce_ok (hstart.trans hfreed)]
  exact Or.inl ⟨_, _, rfl, hfreed⟩

/-! ## Blocks -/

theorem blockCallDisposeHelper_ends {c : BlockCell} (hstart : Cascade start s ev)
    (hd : Dying (.block a) s t []) (hc : t.blocks a = some c)
    (hdesc : c.layout.flags &&& BLOCK_HAS_COPY_DISPOSE ≠ 0 → 4 ≤ c.layout.descriptor.length)
    (hcalls : CallsEnd start n (runCalls run (calls a))) (hlt : liveCount t < n) :
    (∃ u ev', blockCallDisposeHelper (helperCalling start run calls) a t = .ok ((), u) ∧
        Dying (.block a) s u ev') ∨
      blockCallDisposeHelper (helperCalling start run calls) a t = .error .assertFailed := by
  unfold blockCallDisposeHelper
  rw [bind_ok (loadBlock_ok hc), blockDescriptor2]
  by_cases hhas : c.layout.flags &&& BLOCK_HAS_COPY_DISPOSE = 0
  · rw [if_pos hhas]
    exact Or.inl ⟨t, [], rfl, hd⟩
  · have hlen : 3 < c.layout.descriptor.length := hdesc hhas
    have hword : (c.layout.descriptor.drop 2)[1]? = some c.layout.descriptor[3] := by
      simp [hlen]
    rw [if_neg hhas]
    simp only
    rw [bind_ok (wordAt_ok hword _), bind_ok (log_apply _ _)]
    exact helperCalling_ends hstart hd rfl rfl hcalls hlt

/-- A block that was there at the start. -/
theorem ClosedHeap.block_now (hclosed : ClosedHeap helpers start) (hs : Cascade start s ev)
    (ha : start.blocks a ≠ none) :
    ∃ c, s.blocks a = some c ∧ a < s.next ∧
      (c.layout.flags &&& BLOCK_HAS_COPY_DISPOSE ≠ 0 → 4 ≤ c.layout.descriptor.length) := by
  obtain ⟨c, hc⟩ := Option.ne_none_iff_exists'.1 ha
  obtain ⟨w, hw, hhigh⟩ := hs.block a c hc
  exact ⟨_, hw, hs.next ▸ hclosed.block_lt a c hc, fun hhas => hclosed.descriptor a c hc fun h =>
    hhas ((and_eq_of_high_eq hhigh BLOCK_HAS_COPY_DISPOSE (by decide)).trans h)⟩

/-- A verdict sets the deallocating bit. -/
theorem dying_block {c : BlockCell} (hc : s.blocks a = some c)
    (hcount : refcount c.layout.flags = 1) (hlive : isDeallocating c.layout.flags = false) :
    Dying (.block a) s (s.setBlock a (c.withFlags (c.layout.flags - 1))) [] := by
  obtain ⟨_, hbit, hhigh⟩ := sub_one_views hcount hlive
  have hself := Mem.setBlock_blocks_self s a (c.withFlags (c.layout.flags - 1))
  exact ⟨cascade_setBlock hc hhigh fun _ => hbit,
    live_eq_one (by simp only [flagsOf, hc]; rfl) hlive,
    live_eq_zero (by simp only [flagsOf, hself]; rfl) hbit, rfl⟩

/-- `_Block_release`. -/
theorem blockReleaseWith_ends (hclosed : ClosedHeap helpers start)
    (hcalls : ∀ call, call.Valid start → CallsEnd start n (run call))
    (ha : a = NULL ∨ start.blocks a ≠ none) :
    CallsEnd start (n + 1) (blockReleaseWith (freeKept start .freeBlock)
      (helperCalling start run helpers.dispose) (fun a => log (.destructInstance a)) a) := by
  intro s ev hs hlt
  unfold blockReleaseWith
  by_cases hnull : a = NULL
  · rw [if_pos hnull]
    exact Or.inl ⟨s, [], rfl, Cascade.refl s⟩
  have halive := ha.resolve_left hnull
  obtain ⟨c, hc, hnext, hdesc⟩ := hclosed.block_now hs halive
  rw [if_neg hnull, bind_ok (loadBlock_ok hc)]
  split
  · exact Or.inl ⟨s, [], rfl, Cascade.refl s⟩
  split
  · exact Or.inl ⟨s, [], rfl, Cascade.refl s⟩
  rcases decr_run_cases c.layout.flags with ⟨hcount, hlive, hrun⟩ | ⟨w, hrun, hm⟩
  · -- The verdict: the bit is set, and the measure drops.
    have hdying := dying_block hc hcount hlive
    have hdrop := hdying.cascade.liveCount_lt hnext (Or.inl rfl) hdying.was_live hdying.dead
    have hhas := and_eq_of_high_eq (sub_one_views hcount hlive).2.2 BLOCK_HAS_COPY_DISPOSE
      (by decide)
    rw [bind_ok (loopBlockFlags_ok hc _ hrun), if_pos rfl]
    rcases blockCallDisposeHelper_ends hs hdying (Mem.setBlock_blocks_self s a _)
      (fun h => hdesc (hhas ▸ h))
      (runCalls_end fun call hcall => hcalls call (hclosed.dispose a halive call hcall))
      (Nat.lt_of_lt_of_le hdrop (Nat.le_of_lt_succ hlt)) with ⟨u, ev', hok, hu⟩ | herr
    · rw [bind_ok hok, bind_ok (log_apply _ _)]
      exact freeKept_ends hs (hu.trans ((Cascade.refl u).quiet rfl rfl)) rfl rfl
    · exact Or.inr (bind_error herr)
  · rw [bind_ok (loopBlockFlags_ok hc _ hrun)]
    exact Or.inl ⟨_, [], rfl, cascade_setBlock hc hm.high fun h => hm.dealloc.trans h⟩

/-! ## `__block` records -/

/-- A record that was there at the start. -/
theorem ClosedHeap.byref_now (hclosed : ClosedHeap helpers start) (hs : Cascade start s ev)
    (ha : start.byrefs a ≠ none) :
    ∃ c, s.byrefs a = some c ∧ a < s.next ∧ start.byrefs c.byref.forwarding ≠ none := by
  obtain ⟨c, hc⟩ := Option.ne_none_iff_exists'.1 ha
  obtain ⟨w, hw, _⟩ := hs.byref a c hc
  exact ⟨_, hw, hs.next ▸ hclosed.byref_lt a c hc, hclosed.forwarding a c hc⟩

theorem dying_byref {c : ByrefCell} (hc : s.byrefs a = some c)
    (hcount : refcount c.byref.flags = 1) (hlive : isDeallocating c.byref.flags = false) :
    Dying (.byref a) s (s.setByref a (c.withFlags (c.byref.flags - 1))) [] := by
  obtain ⟨_, hbit, hhigh⟩ := sub_one_views hcount hlive
  have hself := Mem.setByref_byrefs_self s a (c.withFlags (c.byref.flags - 1))
  exact ⟨cascade_setByref hc hhigh fun _ => hbit,
    live_eq_one (by simp only [flagsOf, hc]; rfl) hlive,
    live_eq_zero (by simp only [flagsOf, hself]; rfl) hbit, rfl⟩

/-- `_Block_byref_release`. -/
theorem blockByrefReleaseWith_ends (hclosed : ClosedHeap helpers start)
    (hcalls : ∀ call, call.Valid start → CallsEnd start n (run call))
    (ha : start.byrefs a ≠ none) :
    CallsEnd start (n + 1) (blockByrefReleaseWith (freeKept start .freeByref)
      (helperCalling start run helpers.destroy) a) := by
  intro s ev hs hlt
  obtain ⟨c, hc, _, halive⟩ := hclosed.byref_now hs ha
  generalize hp : c.byref.forwarding = p at halive
  obtain ⟨d, hd, hnext, _⟩ := hclosed.byref_now hs halive
  unfold blockByrefReleaseWith
  rw [bind_ok (loadByref_ok hc), hp]
  simp only
  rw [bind_ok (loadByref_ok hd)]
  by_cases hfree : d.byref.flags &&& BLOCK_BYREF_NEEDS_FREE = 0
  · rw [if_neg (not_not.2 hfree)]
    exact Or.inl ⟨s, [], rfl, Cascade.refl s⟩
  rw [if_pos hfree]
  by_cases hzero : d.byref.flags &&& BLOCK_REFCOUNT_MASK = 0
  · rw [if_pos hzero]
    exact Or.inr rfl
  rw [if_neg hzero]
  rcases decr_run_cases d.byref.flags with ⟨hcount, hlive, hrun⟩ | ⟨w, hrun, hm⟩
  · have hdying := dying_byref hd hcount hlive
    have hdrop := hdying.cascade.liveCount_lt hnext (Or.inr rfl) hdying.was_live hdying.dead
    rw [bind_ok (loopByrefFlags_ok hd _ hrun), if_pos rfl,
      bind_ok (loadByref_ok (Mem.setByref_byrefs_self s p _))]
    split
    · rw [bind_ok (log_apply _ _)]
      rcases helperCalling_ends (r := .byref p) (e := .byrefDestroy p) hs hdying rfl rfl
        (runCalls_end fun call hcall => hcalls call (hclosed.destroy p halive call hcall))
        (Nat.lt_of_lt_of_le hdrop (Nat.le_of_lt_succ hlt)) with ⟨u, ev', hok, hu⟩ | herr
      · rw [bind_ok hok]
        exact freeKept_ends hs hu rfl rfl
      · exact Or.inr (bind_error herr)
    · exact freeKept_ends hs hdying rfl rfl
  · rw [bind_ok (loopByrefFlags_ok hd _ hrun)]
    exact Or.inl ⟨_, [], rfl, cascade_setByref hd hm.high fun h => hm.dealloc.trans h⟩

/-! ## The cascade -/

/-- A call ends when the depth suffices.  The induction is on the depth. -/
theorem cascadeN_ends (hclosed : ClosedHeap helpers start) (n : Nat) :
    ∀ call, call.Valid start → CallsEnd start n (cascadeN helpers start n call) := by
  induction n with
  | zero => exact fun _ _ _ _ _ hlt => absurd hlt (Nat.not_lt_zero _)
  | succ n ih =>
    intro call hcall
    cases call with
    | release arg => exact blockReleaseWith_ends hclosed ih hcall
    | dispose object flags =>
      intro s ev hs hlt
      unfold cascadeN blockObjectDisposeBody
      simp only
      split
      · next hkind => exact blockByrefReleaseWith_ends hclosed ih (hcall.2 hkind) s ev hs hlt
      split
      · next hkind => exact blockReleaseWith_ends hclosed ih (hcall.1 hkind) s ev hs hlt
      split
      · exact Or.inl ⟨_, _, rfl, (Cascade.refl s).quiet rfl rfl⟩
      · exact Or.inl ⟨s, [], rfl, Cascade.refl s⟩

/-- On every heap a call returns or stops at `os_assert`.  A run that calls a
helper or frees an object a second time would come to another fault. -/
theorem cascade_terminates (hclosed : ClosedHeap helpers s) {call : ReleaseCall}
    (hcall : call.Valid s) :
    (∃ t, cascade helpers call s = .ok ((), t) ∧ Once (newEvents s t)) ∨
      cascade helpers call s = .error .assertFailed := by
  have hends := cascadeN_ends hclosed (releaseFuel s + 1) call hcall s [] (Cascade.refl s)
    (Nat.lt_succ_of_le (liveCount_le s))
  refine hends.imp (fun ⟨t, ev, hrun, ht⟩ => ⟨t, hrun, ?_⟩) id
  rw [newEvents_append ht.trace]
  exact ht.once

end

/-! ## The helpers that compilers generate -/

/-- The calls of a compiler-generated dispose helper. -/
def disposeCalls (captured : List Capture) : List ReleaseCall :=
  captured.filterMap fun x => x.kind.flags.map (.dispose x.value)

/-- The field that a destroy helper handles. -/
def ByrefDestroy.field : ByrefDestroy → Nat
  | .dispose field _ => field
  | .release field => field

/-- The call of the destroy helper of a record. -/
def destroyCalls (record : BlockByref) : List ReleaseCall :=
  match record.byref2 with
  | none => []
  | some byref2 =>
    match byref2.byrefDestroy with
    | .dispose field flags => [.dispose (record.storage.getD field NULL) flags]
    | .release field => [.release (record.storage.getD field NULL)]

theorem disposeFields_eq_runCalls (run : ReleaseCall → M Unit) (xs : List Capture) :
    disposeFields (fun object flags => run (.dispose object flags)) xs =
      runCalls run (disposeCalls xs) := by
  induction xs with
  | nil => rfl
  | cons x xs ih =>
    unfold disposeFields disposeCalls
    rw [List.filterMap_cons]
    cases hk : x.kind.flags with
    | none => exact ih
    | some flags =>
      show (run (.dispose x.value flags) >>= fun _ => disposeFields _ xs) = _
      rw [ih]
      rfl

theorem disposeHelper_eq_runCalls (run : ReleaseCall → M Unit) {s : Mem} {a : Addr} {c : BlockCell}
    (hc : s.blocks a = some c) :
    disposeHelper (fun object flags => run (.dispose object flags)) a s =
      runCalls run (disposeCalls c.layout.captured) s := by
  unfold disposeHelper
  rw [bind_ok (loadBlock_ok hc), disposeFields_eq_runCalls]

theorem runCalls_single (run : ReleaseCall → M Unit) (call : ReleaseCall) (s : Mem) :
    runCalls run [call] s = run call s := by
  show (run call >>= fun _ => pure ()) s = _
  rw [bind_apply]
  cases run call s with
  | ok out => rfl
  | error e => rfl

theorem byrefDestroyHelper_eq_runCalls (run : ReleaseCall → M Unit) {s : Mem} {a : Addr}
    {c : ByrefCell} {h : BlockByref2} (hc : s.byrefs a = some c) (hh : c.byref.byref2 = some h)
    (hfield : h.byrefDestroy.field < c.byref.storage.length) :
    byrefDestroyHelper (fun object flags => run (.dispose object flags))
        (fun object => run (.release object)) a s =
      runCalls run (destroyCalls c.byref) s := by
  have hword : ∀ i, i < c.byref.storage.length →
      c.byref.storage[i]? = some (c.byref.storage.getD i NULL) := fun i hi => by
    rw [List.getD_eq_getElem?_getD, List.getElem?_eq_getElem hi]
    rfl
  unfold byrefDestroyHelper destroyCalls
  rw [bind_ok (loadByref_ok hc)]
  simp only [hh]
  cases hd : h.byrefDestroy with
  | dispose field flags =>
    rw [hd] at hfield
    simp only
    rw [bind_ok (wordAt_ok (hword field hfield) s)]
    exact (runCalls_single run _ s).symm
  | release field =>
    rw [hd] at hfield
    simp only
    rw [bind_ok (wordAt_ok (hword field hfield) s)]
    exact (runCalls_single run _ s).symm

/-- The helpers that compilers generate for the records of `s`. -/
def Helpers.compiled (s : Mem) : Helpers where
  dispose a := ((s.blocks a).map fun c => disposeCalls c.layout.captured).getD []
  destroy a := ((s.byrefs a).map fun c => destroyCalls c.byref).getD []

/-- A block and a `__block` record on the heap that hold each other.  Each has
the count one. -/
def cycleHeap : Mem where
  blocks a := if a = 1 then some ⟨.heap, {
    isa := .mallocBlock
    flags := BLOCK_HAS_COPY_DISPOSE ||| BLOCK_NEEDS_FREE ||| 2
    reserved := 0
    invoke := 100
    descriptor := [0, 40, 201, 202]
    captured := [⟨.byref, 2⟩] }⟩ else none
  byrefs a := if a = 2 then some ⟨.heap, {
    isa := .nil
    forwarding := 2
    flags := BLOCK_BYREF_HAS_COPY_DISPOSE ||| BLOCK_BYREF_NEEDS_FREE ||| 2
    size := 48
    byref2 := some ⟨.copy 0, .release 0⟩
    storage := [1] }⟩ else none
  next := 3
  mallocs := 0
  trace := []

theorem cycleHeap_closed : ClosedHeap (.compiled cycleHeap) cycleHeap := by
  have hblock : ∀ a, cycleHeap.blocks a ≠ none → a = 1 := fun a h => by
    by_contra hne
    exact h (if_neg hne)
  have hbyref : ∀ a, cycleHeap.byrefs a ≠ none → a = 2 := fun a h => by
    by_contra hne
    exact h (if_neg hne)
  refine ⟨fun a c h => ?_, fun a c h => ?_, fun a c h _ => ?_, fun a c h => ?_,
    fun a h call hcall => ?_, fun a h call hcall => ?_⟩
  · obtain rfl := hblock a (h ▸ Option.some_ne_none c)
    decide
  · obtain rfl := hbyref a (h ▸ Option.some_ne_none c)
    decide
  · obtain rfl := hblock a (h ▸ Option.some_ne_none c)
    obtain rfl := Option.some.inj h
    decide
  · obtain rfl := hbyref a (h ▸ Option.some_ne_none c)
    obtain rfl := Option.some.inj h
    exact Option.some_ne_none _
  · obtain rfl := hblock a h
    obtain rfl : call = .dispose 2 BLOCK_FIELD_IS_BYREF := List.mem_singleton.1 hcall
    exact ⟨fun h => absurd h (by decide), fun _ => Option.some_ne_none _⟩
  · obtain rfl := hbyref a h
    obtain rfl : call = .release 1 := List.mem_singleton.1 hcall
    exact Or.inr (Option.some_ne_none _)

theorem cascade_terminates_cycle :
    (∃ t, cascade (.compiled cycleHeap) (.release 1) cycleHeap = .ok ((), t) ∧
        Once (newEvents cycleHeap t)) ∨
      cascade (.compiled cycleHeap) (.release 1) cycleHeap = .error .assertFailed :=
  cascade_terminates cycleHeap_closed (Or.inr (Option.some_ne_none _))

/-- The record is freed within the release of the block. -/
example : ∃ t, cascade (.compiled cycleHeap) (.release 1) cycleHeap = .ok ((), t) ∧
    frees t.trace = [.byref 2, .block 1] :=
  ⟨_, rfl, rfl⟩

end BlocksRuntime
