import BlocksRuntime.CopySteps
import BlocksRuntime.Reentrancy

/-!
# Calls from within the destroy helper of a `__block` record

`_Block_byref_copy` takes a record with count zero for one on the stack.  A heap
record has count zero while its destroy helper runs, and its flags have the
deallocating bit.

* `ByrefCalls` is the calls of a destroy helper, and `ByrefCalls.Matched` says
  that each reference that it acquires is disposed once.
* `SafeDestroy` is the deallocation as it should be.
* `Pinned` says that a record forwards to a copy with the deallocating bit and a
  count.  It is a frame of copying (`pinned_copying`), so a copy that is made
  in the destroy helper has the bit when it is returned (`copy_deallocating`).
* `safeDestroy_iff` says that the deallocation is as it should be only without
  calls.
-/

namespace BlocksRuntime

open StateFrame

/-! ## Destroy helpers that call the runtime -/

/-- The calls of a destroy helper, with `BLOCK_FIELD_IS_BYREF`.  A target is the
record itself or the result of one of the assignments so far.  A disposal comes
with the calls of the destroy helper that it may run. -/
inductive ByrefCalls where
  | done
  | assign (target : Option Nat) (rest : ByrefCalls)
  | dispose (target : Option Nat) (destroy rest : ByrefCalls)
  deriving Repr

/-- Each acquired reference is disposed once, and none that was not acquired. -/
def ByrefCalls.Matched : ByrefCalls → (acquired held : Nat) → Prop
  | .done, _, held => held = 0
  | .assign target rest, acquired, held =>
    (∀ i ∈ target, i < acquired) ∧ rest.Matched (acquired + 1) (held + 1)
  | .dispose target destroy rest, acquired, held =>
    (∀ i ∈ target, i < acquired) ∧ 0 < held ∧ destroy.Matched 0 0 ∧ rest.Matched acquired (held - 1)

/-- The pointer that a call is about. -/
def callTarget (byref : Addr) (results : List Addr) : Option Nat → Addr
  | none => byref
  | some i => results.getD i byref

/-- Make the calls.  `inspect` sees each record that an assignment returns. -/
def ByrefCalls.run (env : Env) (inspect : BlockByref → M Unit) :
    ByrefCalls → Addr → List Addr → M Unit
  | .done, _, _ => pure ()
  | .assign target rest, byref, results => do
    match ← blockObjectAssign env (callTarget byref results target) BLOCK_FIELD_IS_BYREF with
    | none => rest.run env inspect byref results
    | some copy => do
      let record ← loadByref copy
      inspect record
      rest.run env inspect byref (results ++ [copy])
  | .dispose target destroy rest, byref, results => do
    let byrefRelease := blockByrefReleaseBody fun p => destroy.run env inspect p []
    blockObjectDisposeBody (fun o => log (.releaseObject o)) blockRelease byrefRelease
      (callTarget byref results target) BLOCK_FIELD_IS_BYREF
    rest.run env inspect byref results

/-- `_Block_byref_release` with these calls in the destroy helper. -/
def byrefReleaseCalling (env : Env) (inspect : BlockByref → M Unit) (calls : ByrefCalls) :
    Addr → M Unit :=
  blockByrefReleaseBody fun p => calls.run env inspect p []

/-- What `_Block_byref_copy` should return: a record that is not being
deallocated and has a reference. -/
def expectCounted (record : BlockByref) : M Unit :=
  expect (isDeallocating record.flags = false ∧ 0 < refcount record.flags)

/-- The heap records of a variable: the record itself, and the copies of one of
them. -/
inductive RecordOf (events : List Event) (byref : Addr) : Addr → Prop where
  | self : RecordOf events byref byref
  | copy (src a : Addr) (h : RecordOf events byref src) (hmem : .mallocByref src a ∈ events) :
      RecordOf events byref a

/-- The release of the last reference returns, each record that is acquired
meanwhile is sound, each destroy helper runs at most once, and no record of the
variable is left. -/
def SafeDestroy (env : Env) (calls : ByrefCalls) (s : Mem) (byref : Addr) : Prop :=
  ∃ t, byrefReleaseCalling env expectCounted calls byref s = .ok ((), t) ∧
    (∀ a, (newEvents s t).count (.byrefDestroy a) ≤ 1) ∧
    ∀ a, RecordOf (newEvents s t) byref a → t.byrefs a = none

/-! ## A copy of a record that is being deallocated -/

/-- The record `src` forwards to `copy`, which has the deallocating bit and a
count. -/
structure Pinned (src copy : Addr) (s : Mem) : Prop where
  src_lt : src < s.next
  copy_lt : copy < s.next
  forwarding : ∃ c, s.byrefs src = some c ∧ c.byref.forwarding = copy
  deallocating : ∃ d, s.byrefs copy = some d ∧ d.byref.forwarding = copy ∧
    isDeallocating d.byref.flags = true ∧ refcount d.byref.flags ≠ 0

section

variable {env : Env} {src copy : Addr} {s t : Mem}

/-- Whatever leaves the two records alone. -/
theorem Pinned.of_eq (h : Pinned src copy s) (hnext : s.next ≤ t.next)
    (hsrc : t.byrefs src = s.byrefs src) (hcopy : t.byrefs copy = s.byrefs copy) :
    Pinned src copy t where
  src_lt := Nat.lt_of_lt_of_le h.src_lt hnext
  copy_lt := Nat.lt_of_lt_of_le h.copy_lt hnext
  forwarding := by
    rw [hsrc]
    exact h.forwarding
  deallocating := by
    rw [hcopy]
    exact h.deallocating

/-- A store into a record that keeps the forwarding pointer, the deallocating
bit and the count above zero. -/
theorem Pinned.setByref (h : Pinned src copy s) {a : Addr} {c d : ByrefCell}
    (hc : s.byrefs a = some c) (hforwarding : d.byref.forwarding = c.byref.forwarding)
    (hdealloc : isDeallocating d.byref.flags = isDeallocating c.byref.flags)
    (hcount : refcount c.byref.flags ≠ 0 → refcount d.byref.flags ≠ 0) :
    Pinned src copy (s.setByref a d) where
  src_lt := h.src_lt
  copy_lt := h.copy_lt
  forwarding := by
    obtain ⟨e, he, hf⟩ := h.forwarding
    rcases Mem.setByref_cases d hc he with ⟨_, rfl, hself⟩ | ⟨_, hother⟩
    · exact ⟨d, hself, hforwarding.trans hf⟩
    · exact ⟨e, hother, hf⟩
  deallocating := by
    obtain ⟨e, he, hf, hbit, hpos⟩ := h.deallocating
    rcases Mem.setByref_cases d hc he with ⟨_, rfl, hself⟩ | ⟨_, hother⟩
    · exact ⟨d, hself, hforwarding.trans hf, hdealloc.trans hbit, hcount hpos⟩
    · exact ⟨e, hother, hf, hbit, hpos⟩

/-- A record with a zero count behind its forwarding pointer is neither of the
two. -/
theorem Pinned.ne_of_zero (h : Pinned src copy s) {v : Addr} {c d : ByrefCell}
    (hc : s.byrefs v = some c) (hd : s.byrefs c.byref.forwarding = some d)
    (hzero : refcount d.byref.flags = 0) : src ≠ v ∧ copy ≠ v := by
  obtain ⟨e, he, hf, _, hpos⟩ := h.deallocating
  have hcopy : c.byref.forwarding ≠ copy := fun heq => by
    rw [heq, he, Option.some.injEq] at hd
    exact hpos (hd ▸ hzero)
  refine ⟨fun heq => ?_, fun heq => ?_⟩
  · subst heq
    obtain ⟨c', hc', hf'⟩ := h.forwarding
    obtain rfl : c = c' := Option.some.inj (hc.symm.trans hc')
    exact hcopy hf'
  · subst heq
    obtain rfl : c = e := Option.some.inj (hc.symm.trans he)
    exact hcopy hf

/-- Operations on anything but the records. -/
theorem pinned_of_byrefs_eq {β : Type} {x : M β}
    (h : ∀ s b t, x s = .ok (b, t) → t.byrefs = s.byrefs ∧ t.next = s.next) :
    Stays (Pinned src copy) (fun _ _ => True) x := by
  intro s b t hs hrun
  obtain ⟨hbyrefs, hnext⟩ := h s b t hrun
  exact ⟨hs.of_eq hnext.ge (by rw [hbyrefs]) (by rw [hbyrefs]), trivial⟩

/-- Copying leaves the two records so. -/
theorem pinned_copying (env : Env) (src copy : Addr) :
    CopyingFrame env (Pinned src copy) (fun _ _ => True) where
  isFrame := ⟨fun _ _ => trivial, fun _ _ _ _ _ _ => trivial⟩
  log _ := pinned_of_byrefs_eq fun s b t h => by
    obtain ⟨_, rfl⟩ := Prod.mk.inj (Except.ok.inj h)
    exact ⟨rfl, rfl⟩
  noMemory _ hs := ⟨hs.of_eq (Nat.le_refl _) rfl rfl, trivial⟩
  newBlock _ _ _ hs _ := ⟨hs.of_eq (Nat.le_succ _) rfl rfl, trivial⟩
  updateBlock _ _ _ := pinned_of_byrefs_eq fun _ _ _ h => by
    obtain ⟨_, _, rfl⟩ := updateBlock_inv h
    exact ⟨rfl, rfl⟩
  incrBlock _ := pinned_of_byrefs_eq fun _ _ _ h => by
    obtain ⟨_, _, _, _, rfl⟩ := loopBlockFlags_inv h
    exact ⟨rfl, rfl⟩
  newByref s v c d hs hc hd hzero t hrun := by
    obtain ⟨hsrc, hcopy⟩ := hs.ne_of_zero hc hd hzero
    have hblank : ∀ a, a < s.next → (s.blankCopy env v c).byrefs a = s.byrefs a := fun a ha =>
      Mem.setByref_byrefs_ne _ _ (Nat.ne_of_lt ha)
    obtain ⟨_, _, rfl⟩ := updateByref_inv hrun
    refine ⟨hs.of_eq (Nat.le_succ _) ?_ ?_, trivial⟩
    · rw [Mem.setByref_byrefs_ne _ _ hsrc, hblank src hs.src_lt]
    · rw [Mem.setByref_byrefs_ne _ _ hcopy, hblank copy hs.copy_lt]
  updateByref a f hf s b t hs hrun := by
    obtain ⟨c, hc, rfl⟩ := updateByref_inv hrun
    obtain ⟨hforwarding, hflags⟩ := hf c.byref
    exact ⟨hs.setByref hc hforwarding (congrArg isDeallocating hflags)
      (fun h => by rwa [hflags]), trivial⟩
  incrByref a s r t hs hrun := by
    obtain ⟨c, w, hc, hloop, rfl⟩ := loopByrefFlags_inv hrun
    obtain ⟨r', v, hviews, hcount, hmeta⟩ := incr_run_views c.byref.flags
    rw [hviews] at hloop
    obtain ⟨_, rfl⟩ := Prod.mk.inj hloop
    refine ⟨hs.setByref hc rfl hmeta.dealloc fun _ => ?_, trivial⟩
    show refcount v ≠ 0
    have hpos : 0 < latched := by decide
    omega

/-- A program that returns the forwarding pointer of `a` as it is in the end. -/
def ReturnsForwarding (a : Addr) (x : M Addr) : Prop :=
  ∀ s r t, x s = .ok (r, t) → ∃ c, t.byrefs a = some c ∧ c.byref.forwarding = r

theorem ReturnsForwarding.bind {β : Type} {a : Addr} (x : M β) {f : β → M Addr}
    (hf : ∀ b, ReturnsForwarding a (f b)) : ReturnsForwarding a (x >>= f) := by
  intro s r t hrun
  obtain ⟨b, u, _, hrest⟩ := bind_eq_ok hrun
  exact hf b u r t hrest

theorem ReturnsForwarding.ite {a : Addr} {p : Prop} [Decidable p] {x y : M Addr}
    (hx : ReturnsForwarding a x) (hy : ReturnsForwarding a y) :
    ReturnsForwarding a (if p then x else y) := by
  split
  · exact hx
  · exact hy

theorem returnsForwarding_load (a : Addr) : ReturnsForwarding a (do
    let src ← loadByref a
    return src.forwarding) := by
  intro s r t hrun
  obtain ⟨b, u, hload, hret⟩ := bind_eq_ok hrun
  obtain ⟨rfl, c, hc, rfl⟩ := loadByref_inv hload
  obtain ⟨rfl, rfl⟩ := Prod.mk.inj (Except.ok.inj hret)
  exact ⟨c, hc, rfl⟩

theorem blockByrefCopyBody_result (env : Env) (byrefKeep : Addr → Addr → M Unit) (a : Addr) :
    ReturnsForwarding a (blockByrefCopyBody env byrefKeep a) := by
  have hload := returnsForwarding_load a
  refine .bind _ fun c => .bind _ fun target => .ite (.bind _ fun copy => ?_) (.ite ?_ hload)
  · split
    · exact .bind _ fun _ => hload
    · refine .bind _ fun _ => .bind _ fun _ => .bind _ fun _ => .ite ?_ (.bind _ fun _ => hload)
      refine .bind _ fun _ => .ite ?_ (.bind _ fun _ => .bind _ fun _ => hload)
      exact .bind _ fun _ => .bind _ fun _ => .bind _ fun _ => .bind _ fun _ => hload
  · exact .bind _ fun _ => hload

/-- A copy of a heap record that is being deallocated is returned with the
deallocating bit. -/
theorem copy_deallocating {byrefKeep : Addr → Addr → M Unit} {b r : Addr} {c : ByrefCell}
    (hkeep : ∀ dst src, Stays (Pinned b s.next) (fun _ _ => True) (byrefKeep dst src))
    (hlt : b < s.next) (hc : s.byrefs b = some c) (hforward : c.byref.forwarding = b)
    (hcount : refcount c.byref.flags = 0) (hdealloc : isDeallocating c.byref.flags = true)
    (hrun : blockByrefCopyBody env byrefKeep b s = .ok (r, t)) :
    ∃ d, t.byrefs r = some d ∧ isDeallocating d.byref.flags = true := by
  obtain ⟨e, he, hresult⟩ := blockByrefCopyBody_result env byrefKeep b s r t hrun
  have hne : b ≠ s.next := Nat.ne_of_lt hlt
  have hpinned : Pinned b s.next t := by
    cases hm : env.mallocOk s.mallocs with
    | false =>
      unfold blockByrefCopyBody at hrun
      rw [bind_ok (loadByref_ok hc), hforward, bind_ok (loadByref_ok hc),
        if_pos ((and_refcount_mask_eq_zero c.byref.flags).2 hcount),
        bind_ok (malloc_none hm)] at hrun
      cases hrun
    | true =>
      rw [blockByrefCopyBody_moving hlt hc hforward hcount hm] at hrun
      refine ((pinned_copying env b s.next).finishByrefCopy_stays hkeep c.byref s.next b
        _ r t ?_ hrun).1
      refine ⟨Nat.lt_succ_of_lt hlt, Nat.lt_succ_self _,
        ⟨_, Mem.moving_variable c _ hne, rfl⟩, _, Mem.moving_self s b c _, rfl,
        (heapByrefFlags_dealloc _).trans hdealloc, ?_⟩
      show refcount (heapByrefFlags c.byref.flags) ≠ 0
      rw [heapByrefFlags_refcount hcount]
      decide
  obtain ⟨e', he', hforwarding⟩ := hpinned.forwarding
  obtain rfl : e = e' := Option.some.inj (he.symm.trans he')
  obtain ⟨d, hd, _, hbit, _⟩ := hpinned.deallocating
  exact ⟨d, by rw [← hresult, hforwarding, hd], hbit⟩

/-! ## The deallocation -/

/-- The memory in which the destroy helper of `b` is called. -/
def Mem.destroying (s : Mem) (b : Addr) (c : ByrefCell) : Mem :=
  (s.setByref b (c.withFlags (c.byref.flags - 1))).log (.byrefDestroy b)

/-- `_Block_byref_release` of the last reference to a heap record with helpers. -/
theorem blockByrefReleaseBody_last (byrefDestroy : Addr → M Unit) {b : Addr} {c : ByrefCell}
    (hc : s.byrefs b = some c) (hforward : c.byref.forwarding = b)
    (hfree : c.byref.flags &&& BLOCK_BYREF_NEEDS_FREE ≠ 0)
    (hhelpers : c.byref.flags &&& BLOCK_BYREF_HAS_COPY_DISPOSE ≠ 0)
    (hcount : refcount c.byref.flags = 1) (hlive : isDeallocating c.byref.flags = false) :
    blockByrefReleaseBody byrefDestroy b s =
      (do byrefDestroy b; freeByref b : M Unit) (s.destroying b c) := by
  have hpositive : ¬(c.byref.flags &&& BLOCK_REFCOUNT_MASK = 0) := fun h => by
    rw [and_refcount_mask_eq_zero, hcount] at h
    cases h
  have hcell := Mem.setByref_byrefs_self s b (c.withFlags (c.byref.flags - 1))
  have hhas :
      (c.withFlags (c.byref.flags - 1)).byref.flags &&& BLOCK_BYREF_HAS_COPY_DISPOSE ≠ 0 := by
    show (c.byref.flags - 1) &&& BLOCK_BYREF_HAS_COPY_DISPOSE ≠ 0
    rw [and_eq_of_high_eq (sub_one_views hcount hlive).2.2 _ (by decide)]
    exact hhelpers
  unfold blockByrefReleaseBody
  rw [bind_ok (loadByref_ok hc), hforward, bind_ok (loadByref_ok hc), if_pos hfree]
  simp only
  rw [if_neg hpositive, bind_ok (loopByrefFlags_ok hc _ (decr_run_last hcount hlive)),
    if_pos rfl, bind_ok (loadByref_ok hcell), if_pos hhas, bind_ok (log_apply _ _)]
  rfl

/-- Without an allocation the record is the only one of its variable. -/
theorem RecordOf.eq_self {events : List Event} {byref a : Addr} (h : RecordOf events byref a)
    (hnone : ∀ src copy, .mallocByref src copy ∉ events) : a = byref := by
  cases h with
  | self => rfl
  | copy src a _ hmem => exact absurd hmem (hnone src a)

/-- A destroy helper that calls nothing. -/
theorem safeDestroy_done {b : Addr} {c : ByrefCell}
    (hrun : byrefReleaseCalling env expectCounted .done b s = freeByref b (s.destroying b c)) :
    SafeDestroy env .done s b := by
  have hcell : (s.destroying b c).byrefs b = some (c.withFlags (c.byref.flags - 1)) :=
    Mem.setByref_byrefs_self s b _
  rw [freeByref_ok hcell] at hrun
  have hevents : newEvents s (((s.destroying b c).eraseByref b).log (.freeByref b)) =
      [.byrefDestroy b, .freeByref b] :=
    newEvents_append (List.append_assoc s.trace [.byrefDestroy b] [.freeByref b])
  refine ⟨_, hrun, fun a => ?_, fun a ha => ?_⟩
  · rw [hevents]
    by_cases hab : b = a
    · simp [hab]
    · simp [hab]
  · rw [hevents] at ha
    obtain rfl := ha.eq_self fun _ _ => by simp
    exact Mem.eraseByref_byrefs_self _ a

/-- The first call of a matched destroy helper copies the record. -/
theorem ByrefCalls.Matched.first_assign {calls : ByrefCalls} (h : calls.Matched 0 0)
    (hne : calls ≠ .done) : ∃ rest, calls = .assign none rest := by
  cases calls with
  | done => exact absurd rfl hne
  | assign target rest =>
    cases target with
    | none => exact ⟨rest, rfl⟩
    | some i => exact absurd (h.1 i rfl) (Nat.not_lt_zero i)
  | dispose _ _ _ => exact absurd h.2.1 (Nat.lt_irrefl 0)

/-- `_Block_object_assign` of a record that is being deallocated returns no
record with the deallocating bit clear. -/
theorem assign_deallocating {b : Addr} {c : ByrefCell} {v : Option Addr} (hlt : b < s.next)
    (hc : s.byrefs b = some c) (hforward : c.byref.forwarding = b)
    (hcount : refcount c.byref.flags = 0) (hdealloc : isDeallocating c.byref.flags = true)
    (hrun : blockObjectAssign env b BLOCK_FIELD_IS_BYREF s = .ok (v, t)) :
    ∃ r d, v = some r ∧ t.byrefs r = some d ∧ isDeallocating d.byref.flags = true := by
  unfold blockObjectAssign at hrun
  rw [blockObjectAssignN_succ] at hrun
  obtain ⟨r, u, hcopy, hret⟩ := bind_eq_ok (show
    (do let copy ← blockByrefCopyN env (copyFuel s) b
        return some copy : M (Option Addr)) s = .ok (v, t) from hrun)
  obtain ⟨rfl, rfl⟩ := Prod.mk.inj (Except.ok.inj hret)
  have hframe := pinned_copying env b s.next
  obtain ⟨d, hd, hbit⟩ := copy_deallocating
    (hframe.byrefKeepHelper_stays (hframe.blockObjectAssignN_stays _) (hframe.blockCopyN_stays _))
    hlt hc hforward hcount hdealloc hcopy
  exact ⟨r, d, rfl, hd, hbit⟩

/-- The last release of a heap record is as it should be if and only if its
destroy helper does not call back. -/
theorem safeDestroy_iff {calls : ByrefCalls} {b : Addr} {c : ByrefCell}
    (hc : s.byrefs b = some c) (hlt : b < s.next) (hforward : c.byref.forwarding = b)
    (hfree : c.byref.flags &&& BLOCK_BYREF_NEEDS_FREE ≠ 0)
    (hhelpers : c.byref.flags &&& BLOCK_BYREF_HAS_COPY_DISPOSE ≠ 0)
    (hcount : refcount c.byref.flags = 1) (hlive : isDeallocating c.byref.flags = false)
    (hmatched : calls.Matched 0 0) : SafeDestroy env calls s b ↔ calls = .done := by
  have hlast : byrefReleaseCalling env expectCounted calls b s =
      (do calls.run env expectCounted b []; freeByref b : M Unit) (s.destroying b c) :=
    blockByrefReleaseBody_last _ hc hforward hfree hhelpers hcount hlive
  refine ⟨fun ⟨t, hrun, _⟩ => ?_, fun h => ?_⟩
  · by_contra hne
    obtain ⟨rest, rfl⟩ := hmatched.first_assign hne
    have hcell : (s.destroying b c).byrefs b = some (c.withFlags (c.byref.flags - 1)) :=
      Mem.setByref_byrefs_self s b _
    obtain ⟨hzero, hbit, _⟩ := sub_one_views hcount hlive
    rw [hlast] at hrun
    obtain ⟨_, u, hcalls, _⟩ := bind_eq_ok hrun
    obtain ⟨v, u, hassign, hcalls⟩ := bind_eq_ok hcalls
    obtain ⟨r, d, rfl, hd, hdealloc⟩ :=
      assign_deallocating (show b < (s.destroying b c).next from hlt) hcell hforward hzero hbit
        hassign
    obtain ⟨_, w, hinspect, _⟩ := bind_eq_ok ((bind_ok (loadByref_ok hd)).symm.trans hcalls)
    -- The record that the first assignment returned is not what was expected.
    rw [expectCounted, expect, if_neg (by simp [hdealloc])] at hinspect
    cases hinspect
  · subst h
    exact safeDestroy_done (hlast.trans (bind_ok rfl))

end

/-! ## A record that is copied while it is destroyed -/

/-- A heap record with helpers and one reference. -/
def heapRecord : Mem :=
  { blocks := fun _ => none
    byrefs := fun a => if a = 1 then some ⟨.heap, {
      isa := .nil
      forwarding := 1
      flags := BLOCK_BYREF_HAS_COPY_DISPOSE ||| BLOCK_BYREF_NEEDS_FREE ||| 2
      size := 48
      byref2 := some ⟨.assign 0 (BLOCK_BYREF_CALLER ||| BLOCK_FIELD_IS_BLOCK),
        .dispose 0 (BLOCK_BYREF_CALLER ||| BLOCK_FIELD_IS_BLOCK)⟩
      storage := [NULL] }⟩ else none
    next := 2
    mallocs := 0
    trace := [] }

/-- A destroy helper that retains the record and gives it up again. -/
def retainAndGiveUp : ByrefCalls := .assign none (.dispose (some 0) .done .done)

theorem safeDestroy_retainAndGiveUp :
    retainAndGiveUp.Matched 0 0 ∧ ¬SafeDestroy plentiful retainAndGiveUp heapRecord 1 := by
  refine ⟨⟨nofun, ⟨by simp, Nat.one_pos, rfl, rfl⟩⟩, fun ⟨t, hrun, _⟩ => ?_⟩
  have hfails : byrefReleaseCalling plentiful expectCounted retainAndGiveUp 1 heapRecord =
      .error .assertFailed := rfl
  rw [hfails] at hrun
  cases hrun

/-- The copy that it makes is never freed. -/
example : ∃ t, byrefReleaseCalling plentiful (fun _ => pure ()) retainAndGiveUp 1 heapRecord =
    .ok ((), t) ∧ (t.byrefs 1).isNone ∧ (t.byrefs 2).isSome :=
  ⟨_, rfl, rfl, rfl⟩

theorem safeDestroy_heapRecord : SafeDestroy plentiful .done heapRecord 1 :=
  (safeDestroy_iff (s := heapRecord) (b := 1) rfl (by decide) rfl (by decide) (by decide)
    (by decide) (by decide) (show ByrefCalls.Matched .done 0 0 from rfl)).2 rfl

end BlocksRuntime
