import BlocksRuntime.Creation
import BlocksRuntime.StateFrame

/-!
# Calls from within a deallocation

The dispose helper of a block, `destructInstance` and the object-release
callback run in the middle of a release, and they may call the runtime again,
about the block that is being deallocated and about other blocks.

* `Reentry` is the calls of one run, with the calls that the callbacks make
  nested inside.  `Reentry.run` makes them, through the functions of the
  runtime.  It also keeps the blocks whose deallocation is in progress, and it
  stops when a call on one of them has another result than it should
  (`expect`).
* `Ongoing` is the invariant: of the blocks in question, those being deallocated
  are the ones with the bit in their word, and they are still there.
* `Reentered` is what a run may do to a block: another count, or one complete
  deallocation.
* `reentry_run` is the induction over the calls, and `reentrant_deallocation`
  the result.
-/

namespace BlocksRuntime

/-! ## Runs with calls inside calls -/

/-- The calls that a program makes.  A release comes with the calls of the
dispose helper and of `destructInstance`, in case it gives the verdict. -/
inductive Reentry where
  | done
  | copy (b : Addr) (rest : Reentry)
  | tryRetain (b : Addr) (rest : Reentry)
  | isDeallocating (b : Addr) (rest : Reentry)
  | release (b : Addr) (dispose destruct rest : Reentry)
  /-- `_Block_object_dispose` of an object, with the calls of the release
  callback. -/
  | releaseObject (o : Addr) (callback rest : Reentry)
  deriving Repr

/-- Stop at an assertion that fails. -/
def expect (p : Prop) [Decidable p] : M Unit :=
  if p then pure () else fault .assertFailed

/-- The number of calls of `malloc` so far. -/
def mallocCalls : M Nat := fun s => .ok (s.mallocs, s)

/-- A call is made before the block that it names is freed. -/
def whileAllocated (b : Addr) (call : M Unit) : M Unit := fun s =>
  match s.blocks b with
  | some _ => call s
  | none => .ok ((), s)

/-- `_Block_copy` of a block that is being deallocated returns it and does not
allocate. -/
def checkedCopy (env : Env) (dying : List Addr) (b : Addr) : M Unit := do
  let before ← mallocCalls
  let result ← blockCopy env b
  let after ← mallocCalls
  expect (b ∈ dying → result = b ∧ after = before)

def checkedTryRetain (dying : List Addr) (b : Addr) : M Unit := do
  let retained ← blockTryRetain b
  expect (b ∈ dying → retained = false)

def checkedIsDeallocating (dying : List Addr) (b : Addr) : M Unit := do
  let deallocating ← blockIsDeallocating b
  expect (b ∈ dying → deallocating = true)

/-- `_Block_release` with what the dispose helper and `destructInstance` do. -/
def releaseCalling (dispose destruct : M Unit) (b : Addr) : M Unit :=
  let destructInstance := fun a => do
    log (.destructInstance a)
    destruct
  blockReleaseBody (fun _ => dispose) destructInstance b

/-- `_Block_object_dispose` of an object with what the release callback does. -/
def disposeObjectCalling (callback : M Unit) (o : Addr) : M Unit :=
  let releaseObject := fun a => do
    log (.releaseObject a)
    callback
  blockObjectDisposeBody releaseObject blockRelease (blockByrefReleaseN 0) o
    BLOCK_FIELD_IS_OBJECT

/-- Make the calls.  The blocks in `dying` are being deallocated. -/
def Reentry.run (env : Env) : Reentry → List Addr → M Unit
  | .done, _ => pure ()
  | .copy b rest, dying => do
    whileAllocated b (checkedCopy env dying b)
    rest.run env dying
  | .tryRetain b rest, dying => do
    whileAllocated b (checkedTryRetain dying b)
    rest.run env dying
  | .isDeallocating b rest, dying => do
    whileAllocated b (checkedIsDeallocating dying b)
    rest.run env dying
  | .release b dispose destruct rest, dying => do
    whileAllocated b
      (releaseCalling (dispose.run env (b :: dying)) (destruct.run env (b :: dying)) b)
    rest.run env dying
  | .releaseObject o callback rest, dying => do
    disposeObjectCalling (callback.run env dying) o
    rest.run env dying

/-- The calls name blocks of `B` only. -/
def Reentry.On (B : Finset Addr) : Reentry → Prop
  | .done => True
  | .copy b rest => b ∈ B ∧ rest.On B
  | .tryRetain b rest => b ∈ B ∧ rest.On B
  | .isDeallocating b rest => b ∈ B ∧ rest.On B
  | .release b dispose destruct rest => b ∈ B ∧ dispose.On B ∧ destruct.On B ∧ rest.On B
  | .releaseObject _ callback rest => callback.On B ∧ rest.On B

/-! ## What a run does to the blocks -/

/-- The word and the descriptor of a heap block.  The count may be any. -/
structure HeapBlock (c : BlockCell) : Prop where
  needsFree : c.layout.flags &&& BLOCK_NEEDS_FREE ≠ 0
  notGlobal : c.layout.flags &&& BLOCK_IS_GLOBAL = 0
  descriptor : c.layout.flags &&& BLOCK_HAS_COPY_DISPOSE ≠ 0 → 4 ≤ c.layout.descriptor.length

/-- Between two calls, with the deallocation of `dying` in progress. -/
structure Ongoing (B : Finset Addr) (dying : List Addr) (s : Mem) : Prop where
  null : NULL ∉ B
  cell : ∀ b ∈ B, ∀ c, s.blocks b = some c →
    HeapBlock c ∧ (isDeallocating c.layout.flags = true ↔ b ∈ dying)
  dying : ∀ b ∈ dying, s.blocks b ≠ none

/-- What may happen to the block `b` while the deallocation of `dying` is in
progress: its count changes, or it gets the verdict and is deallocated. -/
def Reentered (dying : List Addr) (s t : Mem) (b : Addr) : Prop :=
  match s.blocks b with
  | some c =>
    (∃ w, t.blocks b = some (c.withFlags w) ∧ SameMeta w c.layout.flags ∧
      history (.block b) t.trace = history (.block b) s.trace) ∨
    (b ∉ dying ∧ isDeallocating c.layout.flags = false ∧ t.blocks b = none ∧
      history (.block b) t.trace = history (.block b) s.trace ++ blockDeath b c)
  | none => t.blocks b = none ∧ history (.block b) t.trace = history (.block b) s.trace

/-- What a run does to the memory. -/
structure Reenters (dying : List Addr) (s t : Mem) : Prop where
  next : t.next = s.next
  mallocs : t.mallocs = s.mallocs
  byrefs : t.byrefs = s.byrefs
  block : ∀ b, Reentered dying s t b

section

variable {env : Env} {B : Finset Addr} {dying : List Addr} {s t u : Mem} {b : Addr}
  {c : BlockCell}

theorem Reentered.of_eq (hb : t.blocks b = s.blocks b)
    (hh : history (.block b) t.trace = history (.block b) s.trace) : Reentered dying s t b := by
  unfold Reentered
  cases hs : s.blocks b with
  | none => exact ⟨hb.trans hs, hh⟩
  | some c => exact Or.inl ⟨c.layout.flags, hb.trans hs, SameMeta.refl _, hh⟩

theorem Reentered.trans (h : Reentered dying s t b) (h' : Reentered dying t u b) :
    Reentered dying s u b := by
  unfold Reentered at h h' ⊢
  cases hs : s.blocks b with
  | none =>
    simp only [hs] at h
    simp only [h.1] at h'
    exact ⟨h'.1, h'.2.trans h.2⟩
  | some c =>
    simp only [hs] at h
    rcases h with ⟨w, ht, hm, hh⟩ | ⟨hdying, hlive, ht, hh⟩
    · simp only [ht] at h'
      rcases h' with ⟨v, hu, hm', hh'⟩ | ⟨hdying, hlive, hu, hh'⟩
      · exact Or.inl ⟨v, hu, hm'.trans hm, hh'.trans hh⟩
      · refine Or.inr ⟨hdying, hm.dealloc ▸ hlive, hu, ?_⟩
        rw [hh', hh, blockDeath_withFlags hm]
    · simp only [ht] at h'
      exact Or.inr ⟨hdying, hlive, h'.1, h'.2.trans hh⟩

/-- With fewer deallocations in progress more may happen. -/
theorem Reentered.mono {dying' : List Addr} (h : Reentered dying s t b)
    (hsub : ∀ a ∈ dying', a ∈ dying) : Reentered dying' s t b := by
  unfold Reentered at h ⊢
  cases hs : s.blocks b with
  | none =>
    simp only [hs] at h
    exact h
  | some c =>
    simp only [hs] at h
    exact h.imp id fun ⟨hdying, hrest⟩ => ⟨fun hb => hdying (hsub b hb), hrest⟩

theorem Reenters.refl (dying : List Addr) (s : Mem) : Reenters dying s s :=
  ⟨rfl, rfl, rfl, fun _ => .of_eq rfl rfl⟩

theorem Reenters.trans (h : Reenters dying s t) (h' : Reenters dying t u) :
    Reenters dying s u :=
  ⟨h'.next.trans h.next, h'.mallocs.trans h.mallocs, h'.byrefs.trans h.byrefs,
    fun b => (h.block b).trans (h'.block b)⟩

/-- A block that is being deallocated stays until its own release goes on. -/
theorem Reenters.dying_cell (h : Reenters dying s t) (hb : b ∈ dying)
    (hc : s.blocks b = some c) : ∃ w, t.blocks b = some (c.withFlags w) ∧
      SameMeta w c.layout.flags ∧
      history (.block b) t.trace = history (.block b) s.trace := by
  have hblock := h.block b
  unfold Reentered at hblock
  simp only [hc] at hblock
  exact hblock.resolve_right fun hdead => hdead.1 hb

theorem HeapBlock.withFlags {w : Flags} (h : HeapBlock c) (hw : high w = high c.layout.flags) :
    HeapBlock (c.withFlags w) := by
  have hm := fun m hm => and_eq_of_high_eq hw m hm
  refine ⟨?_, ?_, ?_⟩
  · show w &&& BLOCK_NEEDS_FREE ≠ 0
    rw [hm BLOCK_NEEDS_FREE (by decide)]
    exact h.needsFree
  · show w &&& BLOCK_IS_GLOBAL = 0
    rw [hm BLOCK_IS_GLOBAL (by decide)]
    exact h.notGlobal
  · show w &&& BLOCK_HAS_COPY_DISPOSE ≠ 0 → _
    rw [hm BLOCK_HAS_COPY_DISPOSE (by decide)]
    exact h.descriptor

/-- The invariant holds after a run. -/
theorem Ongoing.reenters (hs : Ongoing B dying s) (h : Reenters dying s t) :
    Ongoing B dying t where
  null := hs.null
  cell b hb d hd := by
    have hblock := h.block b
    unfold Reentered at hblock
    cases hsb : s.blocks b with
    | none =>
      simp only [hsb] at hblock
      rw [hblock.1] at hd
      cases hd
    | some c =>
      simp only [hsb] at hblock
      obtain ⟨hheap, hdying⟩ := hs.cell b hb c hsb
      rcases hblock with ⟨w, ht, hm, _⟩ | ⟨_, _, ht, _⟩
      · rw [hd, Option.some.injEq] at ht
        subst ht
        refine ⟨hheap.withFlags hm.high, ?_⟩
        rw [← hdying, ← hm.dealloc]
        rfl
      · rw [ht] at hd
        cases hd
  dying b hb := by
    obtain ⟨c, hc⟩ := Option.ne_none_iff_exists'.1 (hs.dying b hb)
    obtain ⟨w, ht, _⟩ := h.dying_cell hb hc
    rw [ht]
    exact Option.some_ne_none _

/-- Another count in the word of a block. -/
theorem Reenters.setBlock {w : Flags} (hc : s.blocks b = some c)
    (hm : SameMeta w c.layout.flags) : Reenters dying s (s.setBlock b (c.withFlags w)) where
  next := rfl
  mallocs := rfl
  byrefs := rfl
  block a := by
    by_cases hab : a = b
    · subst hab
      unfold Reentered
      simp only [hc]
      exact Or.inl ⟨w, Mem.setBlock_blocks_self s a _, hm, rfl⟩
    · exact .of_eq (Mem.setBlock_blocks_ne s _ hab) rfl

/-! ## The calls -/

/-- A program that returns and does no more than a run may do. -/
def Completes (B : Finset Addr) (dying : List Addr) (x : M Unit) : Prop :=
  ∀ s, Ongoing B dying s → ∃ t, x s = .ok ((), t) ∧ Reenters dying s t

theorem Completes.seq {x y : M Unit} (hx : Completes B dying x) (hy : Completes B dying y) :
    Completes B dying (do x; y) := by
  intro s hs
  obtain ⟨t, hrun, ht⟩ := hx s hs
  obtain ⟨u, hrun', hu⟩ := hy t (hs.reenters ht)
  exact ⟨u, (bind_ok hrun).trans hrun', ht.trans hu⟩

/-- A call is looked at where the block is still there. -/
theorem completes_whileAllocated {x : M Unit}
    (h : ∀ s c, Ongoing B dying s → s.blocks b = some c →
      ∃ t, x s = .ok ((), t) ∧ Reenters dying s t) :
    Completes B dying (whileAllocated b x) := by
  intro s hs
  unfold whileAllocated
  cases hb : s.blocks b with
  | none => exact ⟨s, rfl, Reenters.refl dying s⟩
  | some c => exact h s c hs hb

theorem expect_ok {p : Prop} [Decidable p] (h : p) (s : Mem) : expect p s = .ok ((), s) := by
  rw [expect, if_pos h]
  rfl

theorem Ongoing.ne_null (hs : Ongoing B dying s) (hb : b ∈ B) : b ≠ NULL := fun h =>
  hs.null (h ▸ hb)

theorem completes_copy (env : Env) (hb : b ∈ B) :
    Completes B dying (whileAllocated b (checkedCopy env dying b)) := by
  refine completes_whileAllocated fun s c hs hc => ?_
  obtain ⟨hheap, _⟩ := hs.cell b hb c hc
  obtain ⟨r, v, hrun, _, hm⟩ := incr_run_views c.layout.flags
  refine ⟨_, ?_, Reenters.setBlock hc hm⟩
  have hcopy : blockCopy env b s = .ok (b, s.setBlock b (c.withFlags v)) := by
    show blockCopyBody env _ b s = _
    rw [blockCopyBody, if_neg (hs.ne_null hb), bind_ok (loadBlock_ok hc),
      if_pos hheap.needsFree, bind_ok (loopBlockFlags_ok hc _ hrun), pure_apply]
  have hbefore : mallocCalls s = .ok (s.mallocs, s) := rfl
  rw [checkedCopy, bind_ok hbefore, bind_ok hcopy, bind_ok rfl]
  exact expect_ok (fun _ => ⟨rfl, rfl⟩) _

theorem completes_tryRetain (hb : b ∈ B) :
    Completes B dying (whileAllocated b (checkedTryRetain dying b)) := by
  refine completes_whileAllocated fun s c hs hc => ?_
  obtain ⟨_, hdying⟩ := hs.cell b hb c hc
  cases hd : isDeallocating c.layout.flags with
  | true =>
    have hrun := tryIncr_run_deallocating hd
    refine ⟨_, ?_, Reenters.setBlock hc (SameMeta.refl _)⟩
    rw [checkedTryRetain, blockTryRetain, bind_ok (loopBlockFlags_ok hc _ hrun)]
    exact expect_ok (fun _ => rfl) _
  | false =>
    obtain ⟨v, hrun, _, hm⟩ := tryIncr_run hd
    have hnot : b ∉ dying := fun h => by
      rw [hdying.2 h] at hd
      cases hd
    refine ⟨_, ?_, Reenters.setBlock hc hm⟩
    rw [checkedTryRetain, blockTryRetain, bind_ok (loopBlockFlags_ok hc _ hrun)]
    exact expect_ok (fun h => absurd h hnot) _

theorem completes_isDeallocating (hb : b ∈ B) :
    Completes B dying (whileAllocated b (checkedIsDeallocating dying b)) := by
  refine completes_whileAllocated fun s c hs hc => ?_
  obtain ⟨_, hdying⟩ := hs.cell b hb c hc
  refine ⟨s, ?_, Reenters.refl dying s⟩
  rw [checkedIsDeallocating, blockIsDeallocating, bind_assoc, bind_ok (loadBlock_ok hc)]
  refine expect_ok (fun h => ?_) s
  rw [decide_eq_true_iff, and_deallocating_ne_zero]
  exact hdying.2 h

/-! ## A release -/

/-- The invariant within the deallocation of a block. -/
theorem Ongoing.condemn {v : Flags} (hs : Ongoing B dying s) (hb : b ∈ B)
    (hc : s.blocks b = some c) (hv : high v = high c.layout.flags)
    (hd : isDeallocating v = true) : Ongoing B (b :: dying) (s.condemn b c v) where
  null := hs.null
  cell a ha d hda := by
    by_cases hab : a = b
    · subst hab
      rw [Mem.condemn_blocks_self, Option.some.injEq] at hda
      subst hda
      exact ⟨(hs.cell a ha c hc).1.withFlags hv, iff_of_true hd List.mem_cons_self⟩
    · rw [Mem.condemn_blocks_ne s c v hab] at hda
      obtain ⟨hheap, hiff⟩ := hs.cell a ha d hda
      exact ⟨hheap, hiff.trans (by simp [hab])⟩
  dying a ha := by
    by_cases hab : a = b
    · subst hab
      rw [Mem.condemn_blocks_self]
      exact Option.some_ne_none _
    · rw [Mem.condemn_blocks_ne s c v hab]
      exact hs.dying a ((List.mem_cons.1 ha).resolve_left hab)

/-- The two halves of a deallocation, with the calls that the callbacks made. -/
theorem Reenters.death {v : Flags} {s₃ s₅ : Mem} (hc : s.blocks b = some c)
    (hb : b ∉ dying) (hlive : isDeallocating c.layout.flags = false)
    (hdispose : Reenters (b :: dying) (s.condemn b c v) s₃)
    (hdestruct : Reenters (b :: dying) (s₃.log (.destructInstance b)) s₅) :
    Reenters dying s ((s₅.eraseBlock b).log (.freeBlock b)) where
  next := hdestruct.next.trans hdispose.next
  mallocs := hdestruct.mallocs.trans hdispose.mallocs
  byrefs := hdestruct.byrefs.trans hdispose.byrefs
  block a := by
    by_cases hab : a = b
    · subst hab
      obtain ⟨w₃, hc₃, _, hh₃⟩ :=
        hdispose.dying_cell List.mem_cons_self (Mem.condemn_blocks_self s a c v)
      obtain ⟨_, _, _, hh₅⟩ := hdestruct.dying_cell List.mem_cons_self (b := a) hc₃
      unfold Reentered
      simp only [hc]
      refine Or.inr ⟨hb, hlive, by simp, ?_⟩
      have hcall : history (.block a) (s.condemn a c v).trace =
          history (.block a) s.trace ++ disposeCall a c := by
        show history (.block a) (s.trace ++ disposeCall a c) = _
        rw [history_append, history_disposeCall, if_pos rfl]
      rw [Mem.log_trace, history_append, Mem.eraseBlock_trace, hh₅, Mem.log_trace,
        history_append, hh₃, hcall, blockDeath_eq]
      simp [history_single, Event.subject]
    · -- Another block goes through both halves.
      have hne : Ref.block a ≠ .block b := by simp [hab]
      have hsub : ∀ d ∈ dying, d ∈ b :: dying := fun d hd => List.mem_cons_of_mem b hd
      have hstart : Reentered dying s (s.condemn b c v) a :=
        .of_eq (Mem.condemn_blocks_ne s c v hab) (history_condemn_ne hne s c v)
      have hmiddle : Reentered dying s₃ (s₃.log (.destructInstance b)) a :=
        .of_eq rfl (by simp [history_append, history_single, Event.subject, Ne.symm hab])
      have hend : Reentered dying s₅ ((s₅.eraseBlock b).log (.freeBlock b)) a := by
        refine .of_eq (by simp [hab]) ?_
        simp [history_append, history_single, Event.subject, Ne.symm hab]
      exact ((hstart.trans ((hdispose.block a).mono hsub)).trans
        (hmiddle.trans ((hdestruct.block a).mono hsub))).trans hend

theorem completes_release {dispose destruct : M Unit} (hb : b ∈ B)
    (hdispose : Completes B (b :: dying) dispose)
    (hdestruct : Completes B (b :: dying) destruct) :
    Completes B dying (whileAllocated b (releaseCalling dispose destruct b)) := by
  refine completes_whileAllocated fun s c hs hc => ?_
  obtain ⟨hheap, hdying⟩ := hs.cell b hb c hc
  rw [releaseCalling, blockReleaseBody, if_neg (hs.ne_null hb), bind_ok (loadBlock_ok hc),
    if_neg (not_not.2 hheap.notGlobal), if_neg hheap.needsFree]
  rcases decr_run_cases c.layout.flags with ⟨hcount, hlive, hrun⟩ | ⟨v, hrun, hm⟩
  · -- The verdict.
    obtain ⟨_, hd, hv⟩ := sub_one_views hcount hlive
    have hnot : b ∉ dying := fun h => by
      rw [hdying.2 h] at hlive
      cases hlive
    have hcondemned := hs.condemn hb hc hv hd
    obtain ⟨s₃, hrun₃, h₃⟩ : ∃ s₃, blockCallDisposeHelper (fun _ => dispose) b
        (s.setBlock b (c.withFlags (c.layout.flags - 1))) = .ok ((), s₃) ∧
        Reenters (b :: dying) (s.condemn b c (c.layout.flags - 1)) s₃ := by
      rw [blockCallDisposeHelper_condemn _ hheap.descriptor hv]
      cases blockDescriptor2 c.layout with
      | none => exact ⟨_, rfl, Reenters.refl _ _⟩
      | some _ => exact hdispose _ hcondemned
    have hs₃ := hcondemned.reenters h₃
    have hs₄ : Ongoing B (b :: dying) (s₃.log (.destructInstance b)) :=
      ⟨hs₃.null, hs₃.cell, hs₃.dying⟩
    obtain ⟨s₅, hrun₅, h₅⟩ := hdestruct _ hs₄
    obtain ⟨d, hd₅⟩ := Option.ne_none_iff_exists'.1
      ((hs₄.reenters h₅).dying b List.mem_cons_self)
    refine ⟨_, ?_, Reenters.death hc hnot hlive h₃ h₅⟩
    rw [bind_ok (loopBlockFlags_ok hc _ hrun), if_pos rfl, bind_ok hrun₃, bind_assoc,
      bind_ok (log_apply _ _), bind_ok hrun₅, freeBlock_ok hd₅]
  · refine ⟨_, ?_, Reenters.setBlock hc hm⟩
    rw [bind_ok (loopBlockFlags_ok hc _ hrun)]
    rfl

theorem completes_disposeObject {callback : M Unit} (h : Completes B dying callback) (o : Addr) :
    Completes B dying (disposeObjectCalling callback o) := by
  intro s hs
  have hs' : Ongoing B dying (s.log (.releaseObject o)) := ⟨hs.null, hs.cell, hs.dying⟩
  obtain ⟨t, hrun, ht⟩ := h _ hs'
  refine ⟨t, ?_, ht.next, ht.mallocs, ht.byrefs, fun b => ?_⟩
  · rw [disposeObjectCalling, blockObjectDisposeBody_kind (k := .object) _ _ _ _ rfl]
    exact (bind_ok (log_apply _ _)).trans hrun
  · have hlog : Reentered dying s (s.log (.releaseObject o)) b :=
      .of_eq rfl (by simp [history_append, history_single, Event.subject])
    exact hlog.trans (ht.block b)

/-! ## Whole runs -/

/-- Every call of a run returns, with the result that it should have, and the
blocks end where the release of each of them left it. -/
theorem reentry_run (env : Env) (calls : Reentry) (hon : calls.On B) :
    ∀ dying, Completes B dying (calls.run env dying) := by
  induction calls with
  | done => exact fun dying s _ => ⟨s, rfl, Reenters.refl dying s⟩
  | copy b rest ih => exact fun dying => (completes_copy env hon.1).seq (ih hon.2 dying)
  | tryRetain b rest ih => exact fun dying => (completes_tryRetain hon.1).seq (ih hon.2 dying)
  | isDeallocating b rest ih =>
    exact fun dying => (completes_isDeallocating hon.1).seq (ih hon.2 dying)
  | release b dispose destruct rest ihd ihx ih =>
    obtain ⟨hb, hd, hx, hrest⟩ := hon
    exact fun dying =>
      (completes_release hb (ihd hd (b :: dying)) (ihx hx (b :: dying))).seq (ih hrest dying)
  | releaseObject o callback rest ihc ih =>
    exact fun dying => (completes_disposeObject (ihc hon.1 dying) o).seq (ih hon.2 dying)

/-- Re-entrant deallocation.  Whatever the callbacks call, each call on a block
that is being deallocated has the result that it should have, nothing is
allocated, and a block is left alone or deallocated once: dispose helper,
`destructInstance`, `free`. -/
theorem reentrant_deallocation (env : Env) (calls : Reentry) (hon : calls.On B)
    (hnull : NULL ∉ B)
    (hblocks : ∀ b ∈ B, ∃ c, s.blocks b = some c ∧ HeapBlock c ∧
      isDeallocating c.layout.flags = false) :
    ∃ t, calls.run env [] s = .ok ((), t) ∧ t.mallocs = s.mallocs ∧ t.next = s.next ∧
      ∀ b ∈ B, ∀ c, s.blocks b = some c →
        ((∃ w, t.blocks b = some (c.withFlags w) ∧ isDeallocating w = false) ∧
          history (.block b) t.trace = history (.block b) s.trace) ∨
        (t.blocks b = none ∧
          history (.block b) t.trace = history (.block b) s.trace ++ blockDeath b c) := by
  have hstart : Ongoing B [] s := by
    refine ⟨hnull, fun b hb c hc => ?_, fun b hb => absurd hb List.not_mem_nil⟩
    obtain ⟨d, hd, hheap, hlive⟩ := hblocks b hb
    obtain rfl : d = c := Option.some.inj (hd.symm.trans hc)
    exact ⟨hheap, by simp [hlive]⟩
  obtain ⟨t, hrun, ht⟩ := reentry_run env calls hon [] s hstart
  refine ⟨t, hrun, ht.mallocs, ht.next, fun b hb c hc => ?_⟩
  obtain ⟨d, hd, _, hlive⟩ := hblocks b hb
  obtain rfl : d = c := Option.some.inj (hd.symm.trans hc)
  have hblock := ht.block b
  unfold Reentered at hblock
  simp only [hc] at hblock
  rcases hblock with ⟨w, hw, hm, hh⟩ | ⟨_, _, hnone, hh⟩
  · exact Or.inl ⟨⟨w, hw, hm.dealloc.trans hlive⟩, hh⟩
  · exact Or.inr ⟨hnone, hh⟩

end

/-- Two heap blocks with helpers, each with one reference. -/
def twoHeapBlocks : Mem :=
  let layout : BlockLayout := { outerLiteral with
    isa := .mallocBlock
    flags := BLOCK_HAS_COPY_DISPOSE ||| BLOCK_NEEDS_FREE ||| 2
    captured := [] }
  (Mem.empty.newBlock ⟨.heap, layout⟩).newBlock ⟨.heap, layout⟩

/-- The dispose helper of the first block retains and releases it until the word
would be that of a last reference, and releases the second block, whose helper
does the same to the first. -/
def crossedCalls : Reentry :=
  let again := fun rest => Reentry.copy 1 (.tryRetain 1 (.isDeallocating 1
    (.release 1 .done .done (.release 1 .done .done rest))))
  .release 1 (again (.release 2 (again .done) (again .done) .done)) (again .done) .done

/-- The memory after these calls. -/
def crossedMemory : Mem :=
  match crossedCalls.run plentiful [] twoHeapBlocks with
  | .ok (_, t) => t
  | .error _ => twoHeapBlocks

theorem reentrant_deallocation_crossed :
    ∃ t, crossedCalls.run plentiful [] twoHeapBlocks = .ok ((), t) ∧ t.mallocs = 0 ∧
      ∀ b ∈ ({1, 2} : Finset Addr), t.blocks b = none ∧
        history (.block b) t.trace = [.disposeHelper 202 b, .destructInstance b, .freeBlock b] := by
  have hcell : ∀ b ∈ ({1, 2} : Finset Addr), ∃ c, twoHeapBlocks.blocks b = some c ∧
      HeapBlock c ∧ isDeallocating c.layout.flags = false := by
    intro b hb
    rw [Finset.mem_insert, Finset.mem_singleton] at hb
    rcases hb with rfl | rfl
    · exact ⟨_, rfl, ⟨by decide, by decide, fun _ => by decide⟩, by decide⟩
    · exact ⟨_, rfl, ⟨by decide, by decide, fun _ => by decide⟩, by decide⟩
  have hon : crossedCalls.On ({1, 2} : Finset Addr) := by simp [crossedCalls, Reentry.On]
  obtain ⟨t, hrun, hmallocs, _, hblocks⟩ :=
    reentrant_deallocation plentiful crossedCalls hon (by decide) hcell
  have hfreed : ∀ b ∈ ({1, 2} : Finset Addr), (crossedMemory.blocks b).isNone = true := by
    decide +kernel
  have hend : crossedMemory = t := by rw [crossedMemory, hrun]
  refine ⟨t, hrun, hmallocs, fun b hb => ?_⟩
  have hdead : ∀ c, twoHeapBlocks.blocks b = some c → t.blocks b = none ∧
      history (.block b) t.trace = history (.block b) twoHeapBlocks.trace ++ blockDeath b c := by
    intro c hc
    refine (hblocks b hb c hc).resolve_left fun ⟨⟨w, hw, _⟩, _⟩ => ?_
    have hnone := hfreed b hb
    rw [hend, hw] at hnone
    cases hnone
  rw [Finset.mem_insert, Finset.mem_singleton] at hb
  rcases hb with rfl | rfl
  · exact hdead _ rfl
  · exact hdead _ rfl

end BlocksRuntime
