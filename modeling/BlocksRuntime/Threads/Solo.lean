import BlocksRuntime.CascadeTermination
import BlocksRuntime.ControlStack.Adequacy
import BlocksRuntime.Threads.Outcome

/-!
# One thread alone

The activations of `Frame` and the recursive functions of `Release` are two
models of the same code.  A thread that nobody interferes with does what the
functions do, in any memory, damaged ones included.

* `Follows` relates the outcome of a function to the steps of the thread, with
  one lemma for each function.
* `release_adequate` and `dispose_adequate` say that the two models return,
  fault and run forever on the same inputs.
* `releases_sequential` says that threads which only release come to the same
  memory as the calls one after the other, in any order.
-/

namespace BlocksRuntime.Threads

open Ownership RetryLoop ControlStack

/-- A step without its gains. -/
def Frame.solo (f : Frame) (s : Mem) : Except Fault (List Frame × Mem) :=
  (f.step s).map fun out => (out.1.1, out.2)

/-- A thread alone does what a function with bound `n` comes to. -/
abbrev Follows (n : Nat) (fs : List Frame) (s : Mem) (out : Except Fault (Unit × Mem)) : Prop :=
  Agrees Frame.solo .outOfFuel n fs s out

section

variable {n : Nat} {f : Frame} {fs gs : List Frame} {gained : Multiset Ref} {s t : Mem} {e : Fault}
  {a p arg : Addr} {r : Ref} {x : HeapRecord} {out : Except Fault (Unit × Mem)}

theorem Frame.solo_ok (h : f.step s = .ok ((gs, gained), t)) : f.solo s = .ok (gs, t) := by
  rw [Frame.solo, h]
  rfl

theorem Frame.solo_error (h : f.step s = .error e) : f.solo s = .error e := by
  rw [Frame.solo, h]
  rfl

/-- The activation on top takes a step. -/
theorem Follows.step (gs : List Frame) (t : Mem) (h : f.step s = .ok ((gs, 0), t))
    (hrest : Follows n (gs ++ fs) t out) : Follows n (f :: fs) s out :=
  .next (Frame.solo_ok h) hrest

/-- The activation on top returns, and nothing is left to do. -/
theorem Follows.last (h : f.step s = .ok (([], 0), t)) : Follows n [f] s (.ok ((), t)) :=
  Follows.step [] t h (.done t)

theorem Follows.fault (h : f.step s = .error e) (he : e ≠ .outOfFuel) :
    Follows n (f :: fs) s (.error e) :=
  .crash (Frame.solo_error h) he

/-! ## The counter -/

theorem setWord_same (hx : recordAt s r = some x) : Mem.setWord s r x.word = s := by
  cases r with
  | block a =>
    obtain ⟨c, hc, rfl⟩ := Option.map_eq_some_iff.1 hx
    simp only [Mem.setWord, hc]
    exact Mem.setBlock_same hc
  | byref a =>
    obtain ⟨c, hc, rfl⟩ := Option.map_eq_some_iff.1 hx
    simp only [Mem.setWord, hc]
    exact Mem.setByref_same hc
  | object o => rfl

/-- The counter loop of a thread alone ends in two steps. -/
theorem decr_steps (hx : recordAt s r = some x) {result : Bool} {w : Flags}
    (hrun : (latchingDecrIntShouldDeallocate x.word).run x.word = (result, w)) :
    ∃ k, Steps Frame.solo k [.decrRead r] s (afterDecr r result) (Mem.setWord s r w) := by
  cases hd : latchingDecrIntShouldDeallocate x.word with
  | exit result' =>
    rw [hd, Attempt.run_exit, Prod.mk.injEq] at hrun
    obtain ⟨rfl, rfl⟩ := hrun
    have hread : (Frame.decrRead r).step s = .ok ((afterDecr r result', 0), s) := by
      rw [Frame.step, bind_ok (loadWord_ok hx), hd]
      rfl
    rw [setWord_same hx]
    have hone : Steps Frame.solo 1 [.decrRead r] s (afterDecr r result' ++ []) s :=
      .one (Frame.solo_ok hread)
    rw [List.append_nil] at hone
    exact ⟨1, hone⟩
  | cas new result' =>
    rw [hd, Attempt.run_cas, Prod.mk.injEq] at hrun
    obtain ⟨rfl, rfl⟩ := hrun
    have hread : (Frame.decrRead r).step s =
        .ok (([.decrSwap r ⟨x.word, new, result'⟩], 0), s) := by
      rw [Frame.step, bind_ok (loadWord_ok hx), hd]
      rfl
    have hswap : (Frame.decrSwap r ⟨x.word, new, result'⟩).step s =
        .ok ((afterDecr r result', 0), Mem.setWord s r new) := by
      rw [Frame.step, bind_ok (loadWord_ok hx), if_pos rfl, bind_ok (storeWord_ok hx new)]
      rfl
    have hone : Steps Frame.solo 1 [.decrRead r] s [.decrSwap r ⟨x.word, new, result'⟩] s :=
      .one (Frame.solo_ok hread)
    have htwo := hone.trans (.one (Frame.solo_ok hswap))
    rw [List.append_nil] at htwo
    exact ⟨2, htwo⟩

/-! ## Accesses that fault -/

theorem loadBlock_none (h : s.blocks a = none) : loadBlock a s = .error (badAddr a) := by
  simp [loadBlock, h]

theorem loadByref_none (h : s.byrefs p = none) : loadByref p s = .error (badAddr p) := by
  simp [loadByref, h]

theorem badAddr_ne : badAddr a ≠ .outOfFuel := by
  unfold badAddr
  split <;> simp

/-! ## Blocks -/

/-- A nested call does what the thread does. -/
def Disposes (n : Nat) : Prop :=
  ∀ object flags s, Follows n [.objectDispose object flags] s (blockObjectDisposeN n object flags s)

theorem disposeFields_follows (h : Disposes n) (xs : List Capture) (s : Mem) :
    Follows n [.disposeFields xs] s (disposeFields (blockObjectDisposeN n) xs s) := by
  induction xs generalizing s with
  | nil => exact .last rfl
  | cons x xs ih =>
    rw [disposeFields]
    cases hk : x.kind.flags with
    | none =>
      have hstep : (Frame.disposeFields (x :: xs)).step s = .ok (([.disposeFields xs], 0), s) := by
        simp [Frame.step, hk]
      exact .step _ s hstep (ih s)
    | some flags =>
      have hstep : (Frame.disposeFields (x :: xs)).step s =
          .ok (([.objectDispose x.value flags, .disposeFields xs], 0), s) := by
        simp [Frame.step, hk]
      refine .step _ s hstep ?_
      show Follows n ([.objectDispose x.value flags] ++ [.disposeFields xs]) s _
      exact .seq _ (h x.value flags s) fun t _ => ih t

theorem freeBlock_follows (a : Addr) (s : Mem) : Follows n [.freeBlock a] s (freeBlock a s) := by
  cases hc : s.blocks a with
  | none =>
    have hfree : freeBlock a s = .error (badAddr a) := by simp [freeBlock, hc]
    rw [hfree]
    exact .fault (bind_error hfree) badAddr_ne
  | some c =>
    rw [freeBlock_ok hc]
    exact .last (bind_ok (freeBlock_ok hc))

/-- The end of a block's deallocation. -/
theorem destructInstance_follows (a : Addr) (s : Mem) :
    Follows n [.destructInstance a] s
      ((log (.destructInstance a) >>= fun _ => freeBlock a) s) := by
  rw [bind_ok (log_apply _ _)]
  exact .step [.freeBlock a] _ rfl (freeBlock_follows a _)

theorem callDisposeHelper_follows (h : Disposes n) (a : Addr) (s : Mem) :
    Follows n [.callDisposeHelper a] s ((blockCallDisposeHelper
      (disposeHelper (blockObjectDisposeN n)) a >>= fun _ =>
        log (.destructInstance a) >>= fun _ => freeBlock a) s) := by
  cases hc : s.blocks a with
  | none =>
    have hload := loadBlock_none hc
    rw [bind_error (show blockCallDisposeHelper _ a s = .error (badAddr a) from bind_error hload)]
    exact .fault (bind_error hload) badAddr_ne
  | some c =>
    have hload := loadBlock_ok hc
    cases hdesc : blockDescriptor2 c.layout with
    | none =>
      have hcall : blockCallDisposeHelper (disposeHelper (blockObjectDisposeN n)) a s =
          .ok ((), s) := by
        rw [blockCallDisposeHelper, bind_ok hload, hdesc]
        rfl
      have hstep : (Frame.callDisposeHelper a).step s = .ok (([.destructInstance a], 0), s) := by
        rw [Frame.step, bind_ok hload, hdesc]
        rfl
      rw [bind_ok hcall]
      exact .step _ s hstep (destructInstance_follows a s)
    | some desc =>
      cases hword : desc[1]? with
      | none =>
        have hwordAt : wordAt desc 1 s = .error .outOfBounds := by simp [wordAt, hword]
        have hcall : blockCallDisposeHelper (disposeHelper (blockObjectDisposeN n)) a s =
            .error .outOfBounds := by
          rw [blockCallDisposeHelper, bind_ok hload, hdesc]
          exact bind_error hwordAt
        have hstep : (Frame.callDisposeHelper a).step s = .error .outOfBounds := by
          rw [Frame.step, bind_ok hload, hdesc]
          exact bind_error hwordAt
        rw [bind_error hcall]
        exact .fault hstep (by decide)
      | some dispose =>
        -- the helper reads the block again, and finds it as it was
        have hagain : loadBlock a (s.log (.disposeHelper dispose a)) =
            .ok (c.layout, s.log (.disposeHelper dispose a)) := loadBlock_ok hc
        have hcall : blockCallDisposeHelper (disposeHelper (blockObjectDisposeN n)) a s =
            disposeFields (blockObjectDisposeN n) c.layout.captured
              (s.log (.disposeHelper dispose a)) := by
          rw [blockCallDisposeHelper, bind_ok hload, hdesc]
          dsimp only
          rw [bind_ok (wordAt_ok hword s), bind_ok (log_apply _ _), disposeHelper, bind_ok hagain]
        have hstep : (Frame.callDisposeHelper a).step s = .ok
            (([.disposeFields c.layout.captured, .destructInstance a], 0),
              s.log (.disposeHelper dispose a)) := by
          rw [Frame.step, bind_ok hload, hdesc]
          dsimp only
          rw [bind_ok (wordAt_ok hword s), bind_ok (log_apply _ _)]
          rfl
        rw [bind_apply, hcall, ← bind_apply]
        refine .step _ _ hstep ?_
        show Follows n ([.disposeFields c.layout.captured] ++ [.destructInstance a]) _ _
        exact .seq _ (disposeFields_follows h _ _) fun t _ => destructInstance_follows a t

theorem blockReleaseN_follows (h : Disposes n) (arg : Addr) (s : Mem) :
    Follows n [.release arg] s (blockReleaseN n arg s) := by
  rw [blockReleaseN, blockReleaseBody]
  by_cases hnull : arg = NULL
  · rw [if_pos hnull]
    exact .last (by simp [Frame.step, hnull])
  rw [if_neg hnull]
  cases hc : s.blocks arg with
  | none =>
    have hload := loadBlock_none hc
    rw [bind_error hload]
    exact .fault (by rw [Frame.step, if_neg hnull, bind_error hload]) badAddr_ne
  | some c =>
    have hload := loadBlock_ok hc
    rw [bind_ok hload]
    by_cases hglobal : c.layout.flags &&& BLOCK_IS_GLOBAL ≠ 0
    · rw [if_pos hglobal]
      exact .last (by rw [Frame.step, if_neg hnull, bind_ok hload, if_pos hglobal]; rfl)
    rw [if_neg hglobal]
    refine .step [.releaseNeedsFree arg] s
      (by rw [Frame.step, if_neg hnull, bind_ok hload, if_neg hglobal]; rfl) ?_
    by_cases hfree : c.layout.flags &&& BLOCK_NEEDS_FREE = 0
    · rw [if_pos hfree]
      exact .last (by rw [Frame.step, bind_ok hload, if_pos hfree]; rfl)
    rw [if_neg hfree]
    refine .step [.decrRead (.block arg)] s
      (by rw [Frame.step, bind_ok hload, if_neg hfree]; rfl) ?_
    cases hrun : (latchingDecrIntShouldDeallocate c.layout.flags).run c.layout.flags with
    | mk result w =>
    obtain ⟨k, hk⟩ := decr_steps (blockRecord_of hc) hrun
    rw [bind_ok (loopBlockFlags_ok hc _ hrun)]
    have hset : Mem.setWord s (.block arg) w = s.setBlock arg (c.withFlags w) := by
      simp [Mem.setWord, hc]
    rw [hset] at hk
    refine (Agrees.after hk ?_).mono (Nat.le_add_left n k)
    cases result with
    | false => exact .done _
    | true => exact callDisposeHelper_follows h arg _

/-! ## `__block` records -/

theorem freeByref_follows (p : Addr) (s : Mem) : Follows n [.freeByref p] s (freeByref p s) := by
  cases hc : s.byrefs p with
  | none =>
    have hfree : freeByref p s = .error (badAddr p) := by simp [freeByref, hc]
    rw [hfree]
    exact .fault (bind_error hfree) badAddr_ne
  | some c =>
    rw [freeByref_ok hc]
    exact .last (bind_ok (freeByref_ok hc))

/-- The destroy helper of a record, and the end of its deallocation. -/
theorem byrefDestroy_follows (h : Disposes n) (p : Addr) (s : Mem) :
    Follows n [.byrefDestroy p] s ((log (.byrefDestroy p) >>= fun _ =>
      byrefDestroyHelper (blockObjectDisposeN n) (blockReleaseN n) p >>= fun _ =>
        freeByref p) s) := by
  rw [bind_ok (log_apply _ _)]
  cases hc : s.byrefs p with
  | none =>
    have hload : loadByref p (s.log (.byrefDestroy p)) = .error (badAddr p) := loadByref_none hc
    rw [byrefDestroyHelper, bind_error (bind_error hload)]
    exact .fault (by rw [Frame.step, bind_ok (log_apply _ _), bind_error hload]) badAddr_ne
  | some c =>
    have hload : loadByref p (s.log (.byrefDestroy p)) = .ok (c.byref, s.log (.byrefDestroy p)) :=
      loadByref_ok hc
    cases hbyref2 : c.byref.byref2 with
    | none =>
      have hcall : byrefDestroyHelper (blockObjectDisposeN n) (blockReleaseN n) p
          (s.log (.byrefDestroy p)) = .error .wildCall := by
        rw [byrefDestroyHelper, bind_ok hload, hbyref2]
        rfl
      rw [bind_error hcall]
      refine .fault (e := .wildCall) ?_ (by decide)
      rw [Frame.step, bind_ok (log_apply _ _), bind_ok hload, hbyref2]
      rfl
    | some byref2 =>
      -- both shapes read the variable and pass it on
      have hdestroy : ∀ field (x : Addr → M Unit) (f : Addr → Frame),
          byrefDestroyHelper (blockObjectDisposeN n) (blockReleaseN n) p
            (s.log (.byrefDestroy p)) =
              (wordAt c.byref.storage field >>= x) (s.log (.byrefDestroy p)) →
          (Frame.byrefDestroy p).step s = (wordAt c.byref.storage field >>= fun object =>
              pure ([f object, .freeByref p], 0)) (s.log (.byrefDestroy p)) →
          (∀ object t, Follows n [f object] t (x object t)) →
          Follows n [.byrefDestroy p] s ((byrefDestroyHelper (blockObjectDisposeN n)
            (blockReleaseN n) p >>= fun _ => freeByref p) (s.log (.byrefDestroy p))) := by
        intro field x f hcall hstep hx
        cases hword : c.byref.storage[field]? with
        | none =>
          have hwordAt : wordAt c.byref.storage field (s.log (.byrefDestroy p)) =
              .error .outOfBounds := by simp [wordAt, hword]
          rw [bind_error hwordAt] at hcall hstep
          rw [bind_error hcall]
          exact .fault hstep (by decide)
        | some object =>
          rw [bind_ok (wordAt_ok hword _)] at hcall hstep
          rw [bind_apply, hcall, ← bind_apply]
          refine .step _ _ hstep ?_
          show Follows n ([f object] ++ [.freeByref p]) _ _
          exact .seq _ (hx object _) fun t _ => freeByref_follows p t
      cases hshape : byref2.byrefDestroy with
      | dispose field flags =>
        refine hdestroy field _ (Frame.objectDispose · flags) ?_ ?_ fun object t => h object flags t
        · rw [byrefDestroyHelper, bind_ok hload, hbyref2]
          simp only [hshape]
        · rw [Frame.step, bind_ok (log_apply _ _), bind_ok hload, hbyref2]
          simp only [hshape]
      | release field =>
        refine hdestroy field _ Frame.release ?_ ?_ fun object t =>
          blockReleaseN_follows h object t
        · rw [byrefDestroyHelper, bind_ok hload, hbyref2]
          simp only [hshape]
        · rw [Frame.step, bind_ok (log_apply _ _), bind_ok hload, hbyref2]
          simp only [hshape]

theorem byrefHasDispose_follows (h : Disposes n) {p : Addr} {d : ByrefCell}
    (hd : s.byrefs p = some d) :
    Follows n [.byrefHasDispose p] s ((do
      let target ← loadByref p
      if target.flags &&& BLOCK_BYREF_HAS_COPY_DISPOSE ≠ 0 then
        log (.byrefDestroy p)
        byrefDestroyHelper (blockObjectDisposeN n) (blockReleaseN n) p
      freeByref p : M Unit) s) := by
  have hload := loadByref_ok hd
  rw [bind_ok hload]
  by_cases hhas : d.byref.flags &&& BLOCK_BYREF_HAS_COPY_DISPOSE ≠ 0
  · rw [if_pos hhas]
    exact .step [.byrefDestroy p] s
      (by rw [Frame.step, bind_ok hload, if_pos hhas]; rfl) (byrefDestroy_follows h p s)
  · rw [if_neg hhas]
    exact .step [.freeByref p] s
      (by rw [Frame.step, bind_ok hload, if_neg hhas]; rfl) (freeByref_follows p s)

theorem blockByrefReleaseN_follows (h : Disposes n) (arg : Addr) (s : Mem) :
    Follows n [.byrefRelease arg] s (blockByrefReleaseN n arg s) := by
  rw [blockByrefReleaseN, blockByrefReleaseBody]
  cases hc : s.byrefs arg with
  | none =>
    have hload := loadByref_none hc
    rw [bind_error hload]
    exact .fault (by rw [Frame.step, bind_error hload]) badAddr_ne
  | some c =>
    have hload := loadByref_ok hc
    rw [bind_ok hload]
    dsimp only
    refine .step [.byrefReleaseNeedsFree c.byref.forwarding] s
      (by rw [Frame.step, bind_ok hload]; rfl) ?_
    generalize c.byref.forwarding = p
    cases hd : s.byrefs p with
    | none =>
      have hload := loadByref_none hd
      rw [bind_error hload]
      exact .fault (by rw [Frame.step, bind_error hload]) badAddr_ne
    | some d =>
      have hload := loadByref_ok hd
      rw [bind_ok hload]
      by_cases hfree : d.byref.flags &&& BLOCK_BYREF_NEEDS_FREE ≠ 0
      · rw [if_pos hfree]
        refine .step [.byrefReleaseAssert p] s
          (by rw [Frame.step, bind_ok hload, if_pos hfree]; rfl) ?_
        by_cases hzero : d.byref.flags &&& BLOCK_REFCOUNT_MASK = 0
        · rw [if_pos hzero]
          refine .fault (e := .assertFailed) ?_ (by decide)
          rw [Frame.step, bind_ok hload, if_pos hzero]
          rfl
        rw [if_neg hzero]
        refine .step [.decrRead (.byref p)] s
          (by rw [Frame.step, bind_ok hload, if_neg hzero]; rfl) ?_
        cases hrun : (latchingDecrIntShouldDeallocate d.byref.flags).run d.byref.flags with
        | mk result w =>
          obtain ⟨k, hk⟩ := decr_steps (byrefRecord_of hd) hrun
          have hset : Mem.setWord s (.byref p) w = s.setByref p (d.withFlags w) := by
            simp [Mem.setWord, hd]
          rw [hset] at hk
          refine (Agrees.after hk ?_).mono (Nat.le_add_left n k)
          rw [bind_ok (loopByrefFlags_ok hd _ hrun)]
          cases result with
          | false => exact .done _
          | true =>
            have hd' : (s.setByref p (d.withFlags w)).byrefs p = some (d.withFlags w) := by simp
            exact byrefHasDispose_follows h hd'
      · rw [if_neg hfree]
        exact .last (by rw [Frame.step, bind_ok hload, if_neg hfree]; rfl)

/-! ## All calls -/

/-- `_Block_object_dispose` in terms of the kind that its flags select. -/
theorem blockObjectDisposeBody_heldKind (releaseObject release byrefRelease : Addr → M Unit)
    (object : Addr) (flags : Flags) :
    blockObjectDisposeBody releaseObject release byrefRelease object flags =
      match heldKind flags with
      | .byref | .weakByref => byrefRelease object
      | .block => release object
      | .object => releaseObject object
      | .plain => pure () := by
  unfold blockObjectDisposeBody heldKind
  dsimp only
  split_ifs with h₁ h₂ h₃ h₄ h₅ <;> first | rfl | simp_all

theorem disposes (n : Nat) : Disposes n := by
  induction n with
  | zero => exact fun object flags s => .exhausted _ s
  | succ n ih =>
    intro object flags s
    rw [blockObjectDisposeN_succ, blockObjectDisposeBody_heldKind]
    -- the call that the flags select, one step on
    have hcall : ∀ f out, (Frame.objectDispose object flags).step s = .ok (([f], 0), s) →
        Follows n [f] s out → Follows (n + 1) [.objectDispose object flags] s out :=
      fun f out hstep h => .head (Frame.solo_ok hstep) h
    cases hk : heldKind flags with
    | byref =>
      exact hcall (.byrefRelease object) _ (by simp [Frame.step, hk])
        (blockByrefReleaseN_follows ih object s)
    | weakByref =>
      exact hcall (.byrefRelease object) _ (by simp [Frame.step, hk])
        (blockByrefReleaseN_follows ih object s)
    | block =>
      exact hcall (.release object) _ (by simp [Frame.step, hk]) (blockReleaseN_follows ih object s)
    | object => exact .last (by simp only [Frame.step, hk]; rfl)
    | plain => exact .last (by simp [Frame.step, hk])

/-- The activation of a call. -/
def callFrame : ReleaseCall → Frame
  | .release arg => .release arg
  | .dispose object flags => .objectDispose object flags

/-- A call with at most `n` nested ones. -/
def callRun (n : Nat) : ReleaseCall → M Unit
  | .release arg => blockReleaseN n arg
  | .dispose object flags => blockObjectDisposeN n object flags

theorem callRun_follows (call : ReleaseCall) (n : Nat) (s : Mem) :
    Follows n [callFrame call] s (callRun n call s) := by
  cases call with
  | release arg => exact blockReleaseN_follows (disposes n) arg s
  | dispose object flags => exact disposes n object flags s

/-- A call and the activations of a thread alone do the same in any memory. -/
theorem call_adequate (call : ReleaseCall) :
    Adequate Frame.solo .outOfFuel (fun n => callRun n call) [callFrame call] :=
  adequate_of_agrees fun n s => callRun_follows call n s

theorem callFrame_gives (call : ReleaseCall) : (callFrame call).gives = true := by
  cases call <;> rfl

end

/-! ## One thread of a machine -/

section

variable {s₀ s : Mem} {f : Frame} {n₀ n n' : Machine Unit} {acts : List (Act Unit)}
  {rest : Multiset Ref}

/-- What a call gives up is the same at any time. -/
theorem Frame.refs_later (hs : Sane s₀ s) (hf : f.gives = true)
    (h : ∀ r ∈ f.refs s₀, Target s₀ s r) : f.refs s = f.refs s₀ := by
  cases f with
  | release arg => rfl
  | objectDispose object flags =>
    have hforward : Target s₀ s (.byref (forwardOf s₀ object)) →
        forwardOf s object = forwardOf s₀ object := by
      intro ht
      have hv : s₀.byrefs object ≠ none := fun hnone => by
        rw [show forwardOf s₀ object = object by simp [forwardOf, hnone]] at ht
        exact (ht.forwardOf_self hs).2 hnone
      obtain ⟨c, hc, hc'⟩ := ht.variable hs hv
      rw [forwardOf_some hc, hc']
    simp only [Frame.refs, heldRefs] at h ⊢
    cases hk : heldKind flags with
    | byref =>
      rw [hk] at h
      simp only [hforward (h _ (Multiset.mem_singleton_self _))]
    | weakByref =>
      rw [hk] at h
      simp only [hforward (h _ (Multiset.mem_singleton_self _))]
    | _ => rfl
  | _ => cases hf

/-- The only thread of a machine is alone. -/
theorem run_alone (hrun : n.Run acts n') (hadv : ∀ a ∈ acts, ∃ i, a = .advance i) :
    ∃ k, Steps Frame.solo k (n.workers ()).stack n.mem (n'.workers ()).stack n'.mem := by
  induction hrun with
  | start => exact ⟨0, .refl _ _⟩
  | step acts m a m' _ hstep ih =>
    obtain ⟨k, hk⟩ := ih fun a ha => hadv a (List.mem_append_left _ ha)
    obtain ⟨i, rfl⟩ := hadv a (by simp)
    cases hstep with
    | advance _ f fs gs gained t hstack hrun =>
      rw [hstack] at hk
      refine ⟨k + 1, hk.trans ?_⟩
      rw [Machine.put_self]
      exact .one (Frame.solo_ok hrun)

theorem callsOf_advances {acts : List (Act Unit)} (hadv : ∀ a ∈ acts, ∃ i, a = .advance i) :
    callsOf acts = [] := by
  rw [callsOf, List.filterMap_eq_nil_iff]
  intro a ha
  obtain ⟨i, rfl⟩ := hadv a ha
  rfl

/-- The calls one after the other are a run of a machine with one thread. -/
theorem calls_run (h : Start s₀ n₀) (hrun : n₀.Run acts n)
    (hgives : ∀ f ∈ callsOf acts, f.gives = true) (hidle : (n.workers ()).stack = [])
    (calls : List ReleaseCall)
    (hheld : (n.workers ()).held = given s₀ (calls.map callFrame) + rest) :
    ∃ acts' n' N, n.Run acts' n' ∧ callsOf acts' = calls.map callFrame ∧
      (n'.workers ()).stack = [] ∧
        ∀ k, N ≤ k → runCalls (callRun k) calls n.mem = .ok ((), n'.mem) := by
  induction calls generalizing acts n with
  | nil => exact ⟨[], n, 0, .start, rfl, hidle, fun k _ => rfl⟩
  | cons call calls ih =>
    have hinv := h.inv.run hrun
    have hcall : given s₀ ((call :: calls).map callFrame) =
        (callFrame call).refs s₀ + given s₀ (calls.map callFrame) := by simp [given]
    rw [hcall, add_assoc] at hheld
    have hrefs : (callFrame call).refs n.mem = (callFrame call).refs s₀ :=
      Frame.refs_later hinv.sane (callFrame_gives call) fun r hr =>
        hinv.target_held (i := ()) (hheld ▸ Multiset.mem_add.2 (Or.inl hr))
    obtain ⟨hentry, hborrow⟩ := Frame.gives_entry (callFrame_gives call) n.mem
    have hstep : n.Step (.call () (callFrame call)) (n.put () n.mem
        ⟨[callFrame call], given s₀ (calls.map callFrame) + rest⟩) :=
      .call () _ _ hidle hentry (by rw [hheld, hrefs]) (by rw [hborrow]; exact Multiset.zero_le _)
    have hfirst := hrun.step _ _ _ _ hstep
    have htops := (potential_run h.inv h.tops hfirst).1
    obtain ⟨acts₁, n₁, hrun₁, hadv, hdone⟩ := exists_idle _ _ le_rfl (h.inv.run hfirst) htops
    have hnext := hfirst.append hrun₁
    have hcalls₁ : callsOf (acts ++ [.call () (callFrame call)] ++ acts₁) =
        callsOf acts ++ [callFrame call] := by
      rw [callsOf, List.filterMap_append, List.filterMap_append]
      change callsOf acts ++ [callFrame call] ++ callsOf acts₁ = _
      rw [callsOf_advances hadv, List.append_nil]
    have hgives₁ : ∀ f ∈ callsOf (acts ++ [.call () (callFrame call)] ++ acts₁),
        f.gives = true := by
      intro f hf
      rw [hcalls₁] at hf
      rcases List.mem_append.1 hf with hf | hf
      · exact hgives f hf
      · rw [List.mem_singleton.1 hf]
        exact callFrame_gives call
    have hheld₁ : (n₁.workers ()).held = given s₀ (calls.map callFrame) + rest := by
      obtain ⟨_, hledger⟩ := Ledger.run h hrun hgives
      obtain ⟨_, hledger₁⟩ := Ledger.run h hnext hgives₁
      have hsame := hledger.held.symm.trans hledger₁.held
      rw [hcalls₁, given_append, add_assoc, add_right_inj] at hsame
      have hone : given s₀ [callFrame call] = (callFrame call).refs s₀ := by simp [given]
      have hheld' : (n.workers ()).held = n.held := by simp [Machine.held]
      have hheld₁' : (n₁.workers ()).held = n₁.held := by simp [Machine.held]
      rw [hone, ← hheld', ← hheld₁', hheld] at hsame
      exact (add_left_cancel hsame).symm
    obtain ⟨acts', n', N, hrun', hcalls', hidle', hall⟩ := ih hnext hgives₁ (hdone ()) hheld₁
    obtain ⟨j, hj⟩ := run_alone hrun₁ hadv
    rw [hdone (), Machine.put_self, Machine.put_mem] at hj
    refine ⟨[.call () (callFrame call)] ++ acts₁ ++ acts', n', max N (j + 1),
      (((Machine.Run.step [] n _ _ .start hstep).append hrun₁).append hrun'), ?_, hidle',
      fun k hk => ?_⟩
    · rw [callsOf, List.filterMap_append, List.filterMap_append]
      change [callFrame call] ++ callsOf acts₁ ++ callsOf acts' = _
      rw [callsOf_advances hadv, hcalls']
      rfl
    · have hone : callRun k call n.mem = .ok ((), n₁.mem) :=
        returns_of_steps (callRun_follows call) hj
          (Nat.lt_of_succ_le ((Nat.le_max_right N (j + 1)).trans hk))
      rw [runCalls, bind_ok hone]
      exact hall k ((Nat.le_max_left N (j + 1)).trans hk)

end

/-! ## Many threads and one -/

section

variable {ι : Type} [DecidableEq ι] [Fintype ι] {s₀ : Mem} {m₀ m : Machine ι}
  {acts : List (Act ι)}

/-- Threads that release come to the memory that the same calls come to when
one thread makes them, one after the other and in any order.  Every record and
every object sees the same. -/
theorem releases_sequential (h : Start s₀ m₀) (hrun : m₀.Run acts m)
    (hgives : ∀ f ∈ callsOf acts, f.gives = true) (hidle : ∀ i, (m.workers i).stack = [])
    (calls : List ReleaseCall) (hsame : given s₀ (callsOf acts) = given s₀ (calls.map callFrame)) :
    ∃ N t, (∀ n, N ≤ n → runCalls (callRun n) calls s₀ = .ok ((), t)) ∧ SameCells m.mem t ∧
      (∀ r, recordAt s₀ r ≠ none → history r m.mem.trace = history r t.trace) ∧
        ∀ o, history (.object o) m.mem.trace = history (.object o) t.trace := by
  obtain ⟨left, hheld, _⟩ := releases_outcome h hrun hgives hidle
  let n₀ : Machine Unit := ⟨s₀, fun _ => ⟨[], m₀.held⟩⟩
  have h₀ : Start s₀ n₀ := {
    mem := rfl
    idle := fun _ => rfl
    rep := h.rep
    counted := by simpa only [n₀, Machine.held, Fintype.sum_unique] using h.counted
    positive := h.positive
    settled := h.settled }
  obtain ⟨acts', n, N, hrun', hcalls, hdone, hall⟩ := calls_run h₀ .start
    (fun f hf => by cases hf) rfl calls (by rw [← hsame]; exact hheld)
  have hgives' : ∀ f ∈ callsOf acts', f.gives = true := by
    intro f hf
    rw [hcalls] at hf
    obtain ⟨call, _, rfl⟩ := List.mem_map.1 hf
    exact callFrame_gives call
  rw [← hcalls] at hsame
  exact ⟨N, n.mem, hall, releases_determined h h₀ hrun hrun' hgives hgives' hidle
    (fun _ => hdone) hsame⟩

/-- One thread that makes the two calls the other way round. -/
theorem releases_sequential_raced :
    ∃ N t, (∀ n, N ≤ n → runCalls (callRun n) [.dispose 1 BLOCK_FIELD_IS_BYREF, .release 4]
        copiedClient.mem = .ok ((), t)) ∧ SameCells raced.mem t ∧
      (∀ r, recordAt copiedClient.mem r ≠ none →
        history r raced.mem.trace = history r t.trace) ∧
          ∀ o, history (.object o) raced.mem.trace = history (.object o) t.trace := by
  obtain ⟨acts, hrun, hcalls⟩ := raced_run
  refine releases_sequential sharing_start hrun (by rw [hcalls]; decide) raced_idle _ ?_
  rw [hcalls]
  decide

end

end BlocksRuntime.Threads
