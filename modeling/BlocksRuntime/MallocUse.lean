import BlocksRuntime.Runtime

/-!
# The allocations that a run uses

Copying reads the schedule of `malloc` failures only at the calls that it
makes.  A run that returns is therefore the same run under any other schedule
that agrees on these calls.

* `Steady` computations do not call `malloc`.
* `UsesOwnCalls` is the property, and there is one rule for each construct of
  the runtime functions.
* `usesOwnCalls_blockCopy` is the result for `_Block_copy`.
-/

namespace BlocksRuntime

/-- A computation that does not call `malloc`. -/
def Steady {β : Type} (x : M β) : Prop :=
  ∀ s b t, x s = .ok (b, t) → t.mallocs = s.mallocs

/-- A run that returns is determined by the results of its own calls of
`malloc`. -/
def UsesOwnCalls {β : Type} (f : Env → M β) : Prop :=
  ∀ env env' s b t, env'.junk = env.junk → f env s = .ok (b, t) →
    s.mallocs ≤ t.mallocs ∧
      ((∀ k, s.mallocs ≤ k → k < t.mallocs → env'.mallocOk k = env.mallocOk k) →
        f env' s = .ok (b, t))

section

variable {β γ : Type}

/-! ## Computations that do not allocate -/

theorem steady_pure (b : β) : Steady (pure b : M β) := by
  intro s b' t h
  rw [pure_apply, Except.ok.injEq, Prod.mk.injEq] at h
  rw [h.2]

theorem steady_fault (e : Fault) : Steady (fault e : M β) := by
  intro s b t h
  cases h

theorem steady_log (e : Event) : Steady (log e) := by
  intro s b t h
  rw [log_apply, Except.ok.injEq, Prod.mk.injEq] at h
  rw [← h.2, Mem.log_mallocs]

theorem steady_wordAt (words : List Word) (i : Nat) : Steady (wordAt words i) := by
  unfold wordAt
  split
  · exact steady_pure _
  · exact steady_fault _

theorem steady_loadBlock (a : Addr) : Steady (loadBlock a) := by
  intro s b t h
  rw [(loadBlock_inv h).1]

theorem steady_updateBlock (a : Addr) (f : BlockLayout → BlockLayout) :
    Steady (updateBlock a f) := by
  intro s b t h
  obtain ⟨c, _, rfl⟩ := updateBlock_inv h
  rw [Mem.setBlock_mallocs]

theorem steady_loopBlockFlags (a : Addr) (loop : Flags → RetryLoop.Attempt Flags β) :
    Steady (loopBlockFlags a loop) := by
  intro s b t h
  obtain ⟨c, w, _, _, rfl⟩ := loopBlockFlags_inv h
  rw [Mem.setBlock_mallocs]

theorem steady_storeBlock (a : Addr) (c : BlockCell) : Steady (storeBlock a c) := by
  intro s b t h
  rw [storeBlock_apply, Except.ok.injEq, Prod.mk.injEq] at h
  rw [← h.2, Mem.setBlock_mallocs]

theorem steady_loadByref (a : Addr) : Steady (loadByref a) := by
  intro s b t h
  rw [(loadByref_inv h).1]

theorem steady_updateByref (a : Addr) (f : BlockByref → BlockByref) :
    Steady (updateByref a f) := by
  intro s b t h
  obtain ⟨c, _, rfl⟩ := updateByref_inv h
  rw [Mem.setByref_mallocs]

theorem steady_loopByrefFlags (a : Addr) (loop : Flags → RetryLoop.Attempt Flags β) :
    Steady (loopByrefFlags a loop) := by
  intro s b t h
  obtain ⟨c, w, _, _, rfl⟩ := loopByrefFlags_inv h
  rw [Mem.setByref_mallocs]

theorem steady_storeByref (a : Addr) (c : ByrefCell) : Steady (storeByref a c) := by
  intro s b t h
  rw [storeByref_apply, Except.ok.injEq, Prod.mk.injEq] at h
  rw [← h.2, Mem.setByref_mallocs]

/-! ## The rules -/

theorem Steady.usesOwnCalls {x : M β} (h : Steady x) : UsesOwnCalls fun _ => x :=
  fun _ _ s b t _ hrun => ⟨(h s b t hrun).ge, fun _ => hrun⟩

theorem usesOwnCalls_pure (b : β) : UsesOwnCalls fun _ => (pure b : M β) :=
  (steady_pure b).usesOwnCalls

theorem UsesOwnCalls.bind {f : Env → M β} {g : Env → β → M γ} (hf : UsesOwnCalls f)
    (hg : ∀ b, UsesOwnCalls fun env => g env b) : UsesOwnCalls fun env => f env >>= g env := by
  intro env env' s c u hjunk hrun
  replace hrun : (f env >>= g env) s = .ok (c, u) := hrun
  rw [bind_apply] at hrun
  cases hfs : f env s with
  | error e =>
    rw [hfs] at hrun
    cases hrun
  | ok out =>
    obtain ⟨b, t⟩ := out
    rw [hfs] at hrun
    obtain ⟨hle, hf'⟩ := hf env env' s b t hjunk hfs
    obtain ⟨hle', hg'⟩ := hg b env env' t c u hjunk hrun
    refine ⟨hle.trans hle', fun hk => ?_⟩
    show (f env' >>= g env') s = .ok (c, u)
    rw [bind_ok (hf' fun k hl hu => hk k hl (hu.trans_le hle'))]
    exact hg' fun k hl hu => hk k (hle.trans hl) hu

/-- A computation that does not allocate, followed by one that may. -/
theorem Steady.bind {x : M β} {g : Env → β → M γ} (hx : Steady x)
    (hg : ∀ b, UsesOwnCalls fun env => g env b) : UsesOwnCalls fun env => x >>= g env :=
  hx.usesOwnCalls.bind hg

theorem UsesOwnCalls.ite {p : Prop} [Decidable p] {f g : Env → M β} (hf : UsesOwnCalls f)
    (hg : UsesOwnCalls g) : UsesOwnCalls fun env => if p then f env else g env := by
  by_cases hp : p
  · simpa only [if_pos hp] using hf
  · simpa only [if_neg hp] using hg

theorem usesOwnCalls_malloc : UsesOwnCalls malloc := by
  intro env env' s b t _ hrun
  unfold malloc at hrun ⊢
  split at hrun
  · next hok =>
    rw [Except.ok.injEq, Prod.mk.injEq] at hrun
    obtain ⟨rfl, rfl⟩ := hrun
    refine ⟨Nat.le_succ _, fun hk => ?_⟩
    rw [hk s.mallocs le_rfl (Nat.lt_succ_self _), if_pos hok]
  · next hok =>
    rw [Except.ok.injEq, Prod.mk.injEq] at hrun
    obtain ⟨rfl, rfl⟩ := hrun
    refine ⟨Nat.le_succ _, fun hk => ?_⟩
    rw [hk s.mallocs le_rfl (Nat.lt_succ_self _), if_neg hok]

/-! ## The runtime functions -/

variable {helper : Env → Addr → Addr → M Unit}

theorem usesOwnCalls_callCopyHelper (hh : ∀ a b, UsesOwnCalls fun env => helper env a b)
    (result aBlock : Addr) :
    UsesOwnCalls fun env => blockCallCopyHelper (helper env) result aBlock := by
  unfold blockCallCopyHelper
  refine (steady_loadBlock _).bind fun block => ?_
  cases blockDescriptor2 block with
  | none => exact usesOwnCalls_pure ()
  | some desc =>
    exact (steady_wordAt _ _).bind fun copy => (steady_log _).bind fun _ => hh result aBlock

theorem usesOwnCalls_blockCopyBody (hh : ∀ a b, UsesOwnCalls fun env => helper env a b)
    (arg : Addr) : UsesOwnCalls fun env => blockCopyBody env (helper env) arg := by
  unfold blockCopyBody
  refine UsesOwnCalls.ite (usesOwnCalls_pure _) ?_
  refine (steady_loadBlock _).bind fun aBlock => ?_
  refine UsesOwnCalls.ite ?_ (UsesOwnCalls.ite (usesOwnCalls_pure _) ?_)
  · exact (steady_loopBlockFlags _ _).bind fun _ => usesOwnCalls_pure _
  · refine usesOwnCalls_malloc.bind fun r => ?_
    cases r with
    | none => exact usesOwnCalls_pure _
    | some result =>
      refine (steady_log _).bind fun _ => (steady_storeBlock _ _).bind fun _ => ?_
      refine (usesOwnCalls_callCopyHelper hh _ _).bind fun _ => ?_
      exact (steady_updateBlock _ _).bind fun _ => usesOwnCalls_pure _

/-- The only use of fresh memory. -/
theorem usesOwnCalls_storeFresh (copy : Addr) (src : BlockByref) :
    UsesOwnCalls fun env => storeByref copy ⟨.heap, {
      isa := .nil
      forwarding := copy
      flags := src.flags ||| BLOCK_BYREF_NEEDS_FREE ||| 4
      size := src.size
      byref2 := none
      storage := (List.range src.storage.length).map env.junk }⟩ := by
  intro env env' s b t hjunk hrun
  refine ⟨(steady_storeByref _ _ s b t hrun).ge, fun _ => ?_⟩
  beta_reduce
  rw [hjunk]
  exact hrun

theorem usesOwnCalls_blockByrefCopyBody (hh : ∀ a b, UsesOwnCalls fun env => helper env a b)
    (arg : Addr) : UsesOwnCalls fun env => blockByrefCopyBody env (helper env) arg := by
  have hreturn : UsesOwnCalls fun _ => (do
      let src ← loadByref arg
      return src.forwarding : M Addr) :=
    (steady_loadByref _).bind fun _ => usesOwnCalls_pure _
  unfold blockByrefCopyBody
  refine (steady_loadByref _).bind fun src => (steady_loadByref _).bind fun target => ?_
  refine UsesOwnCalls.ite ?_ (UsesOwnCalls.ite ?_ hreturn)
  · refine usesOwnCalls_malloc.bind fun r => ?_
    cases r with
    | none => exact ((steady_fault _).usesOwnCalls).bind fun _ => hreturn
    | some copy =>
      refine (steady_log _).bind fun _ => (usesOwnCalls_storeFresh copy src).bind fun _ => ?_
      refine (steady_updateByref _ _).bind fun _ => UsesOwnCalls.ite ?_ ?_
      · refine (steady_updateByref _ _).bind fun _ => UsesOwnCalls.ite ?_ ?_
        · refine (steady_wordAt _ _).bind fun _ => (steady_updateByref _ _).bind fun _ => ?_
          exact (steady_log _).bind fun _ => (hh copy arg).bind fun _ => hreturn
        · exact (steady_log _).bind fun _ => (hh copy arg).bind fun _ => hreturn
      · exact (steady_updateByref _ _).bind fun _ => hreturn
  · exact (steady_loopByrefFlags _ _).bind fun _ => hreturn

variable {retainObject : Addr → M Unit} {copy byrefCopy : Env → Addr → M Addr}
  {assign : Env → Addr → Flags → M (Option Addr)}

theorem usesOwnCalls_blockObjectAssignBody (hr : ∀ o, Steady (retainObject o))
    (hc : ∀ a, UsesOwnCalls fun env => copy env a)
    (hy : ∀ a, UsesOwnCalls fun env => byrefCopy env a) (object : Addr) (flags : Flags) :
    UsesOwnCalls fun env =>
      blockObjectAssignBody retainObject (copy env) (byrefCopy env) object flags := by
  unfold blockObjectAssignBody
  refine UsesOwnCalls.ite ?_ (UsesOwnCalls.ite ?_ (UsesOwnCalls.ite ?_ ?_))
  · exact (hr object).bind fun _ => usesOwnCalls_pure _
  · exact (hc object).bind fun _ => usesOwnCalls_pure _
  · exact (hy object).bind fun _ => usesOwnCalls_pure _
  · exact UsesOwnCalls.ite (usesOwnCalls_pure _)
      (UsesOwnCalls.ite (usesOwnCalls_pure _) (usesOwnCalls_pure _))

theorem usesOwnCalls_copyFields (ha : ∀ o f, UsesOwnCalls fun env => assign env o f) (dst : Addr)
    (xs : List Capture) : ∀ i, UsesOwnCalls fun env => copyFields (assign env) dst i xs := by
  induction xs with
  | nil => exact fun _ => usesOwnCalls_pure _
  | cons x xs ih =>
    intro i
    unfold copyFields
    cases x.kind.flags with
    | none => exact ih (i + 1)
    | some flags =>
      refine (ha x.value flags).bind fun v => ?_
      cases v with
      | none => exact ih (i + 1)
      | some value => exact (steady_updateBlock _ _).bind fun _ => ih (i + 1)

theorem usesOwnCalls_copyHelper (ha : ∀ o f, UsesOwnCalls fun env => assign env o f)
    (dst src : Addr) : UsesOwnCalls fun env => copyHelper (assign env) dst src :=
  (steady_loadBlock src).bind fun block => usesOwnCalls_copyFields ha dst block.captured 0

theorem usesOwnCalls_byrefKeepHelper (ha : ∀ o f, UsesOwnCalls fun env => assign env o f)
    (hc : ∀ a, UsesOwnCalls fun env => copy env a) (dst src : Addr) :
    UsesOwnCalls fun env => byrefKeepHelper (assign env) (copy env) dst src := by
  unfold byrefKeepHelper
  refine (steady_loadByref src).bind fun record => ?_
  cases record.byref2 with
  | none => exact (steady_fault _).usesOwnCalls
  | some byref2 =>
    dsimp only
    cases byref2.byrefKeep with
    | assign field flags =>
      refine (steady_wordAt _ _).bind fun object => (ha object flags).bind fun v => ?_
      cases v with
      | none => exact usesOwnCalls_pure _
      | some value => exact (steady_updateByref _ _).usesOwnCalls
    | copy field =>
      refine (steady_wordAt _ _).bind fun object => (hc object).bind fun value => ?_
      exact (steady_updateByref _ _).usesOwnCalls

theorem usesOwnCalls_blockObjectAssignN (n : Nat) :
    ∀ object flags, UsesOwnCalls fun env => blockObjectAssignN env n object flags := by
  induction n with
  | zero => exact fun _ _ => (steady_fault _).usesOwnCalls
  | succ n ih =>
    have hcopy : ∀ a, UsesOwnCalls fun env => blockCopyN env n a :=
      usesOwnCalls_blockCopyBody (usesOwnCalls_copyHelper ih)
    exact usesOwnCalls_blockObjectAssignBody (fun _ => steady_log _) hcopy
      (usesOwnCalls_blockByrefCopyBody (usesOwnCalls_byrefKeepHelper ih hcopy))

/-- `_Block_copy` reads the schedule of `malloc` failures only at the calls
that it makes. -/
theorem usesOwnCalls_blockCopy (arg : Addr) : UsesOwnCalls fun env => blockCopy env arg := by
  intro env env' s
  exact usesOwnCalls_blockCopyBody
    (usesOwnCalls_copyHelper (usesOwnCalls_blockObjectAssignN (copyFuel s))) arg env env' s

end

end BlocksRuntime
