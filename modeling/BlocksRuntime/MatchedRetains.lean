import BlocksRuntime.Creation
import BlocksRuntime.StateFrame

/-!
# Matched retains and releases

`_Block_copy`, `_Block_release` and `_Block_tryRetain` each decide for
themselves whether a block is counted.

* `RetainCall` is one call on the block's own pointer, and `Succeeds` is a run
  of such calls in which every retain succeeds.
* `counted_run` is what such a run does to a heap block: the count follows the
  calls.  `uncounted_run` is what it does to any other block: a release does
  nothing, and some retains add to the word all the same.
* `matched_neutral_iff` says for which blocks and sequences matched calls leave
  the block as it was.  `_Block_tryRetain` is the one call that does not ask
  what kind of block it has.
-/

namespace BlocksRuntime

open RetryLoop

/-! ## Sequences of calls -/

/-- One call on the block's own pointer. -/
inductive RetainCall where
  | copy
  | tryRetain
  | release
  deriving DecidableEq, Repr

/-- The call, and whether it succeeds: `_Block_copy` has to return the pointer
it was given, `_Block_tryRetain` has to return `true`. -/
def RetainCall.run (env : Env) (a : Addr) : RetainCall → M Bool
  | .copy => do
    let result ← blockCopy env a
    return decide (result = a)
  | .tryRetain => blockTryRetain a
  | .release => do
    blockRelease a
    return true

/-- A run of calls that all succeed. -/
inductive Succeeds (env : Env) (a : Addr) : Mem → List RetainCall → Mem → Prop where
  | nil (s : Mem) : Succeeds env a s [] s
  | cons {s t u : Mem} {call : RetainCall} {calls : List RetainCall}
      (head : call.run env a s = .ok (true, t)) (tail : Succeeds env a t calls u) :
      Succeeds env a s (call :: calls) u

def retains (calls : List RetainCall) : Nat := calls.countP (· ≠ .release)

def releases (calls : List RetainCall) : Nat := calls.countP (· = .release)

/-- As many releases as retains, and at no point more. -/
structure MatchedCalls (calls : List RetainCall) : Prop where
  before : ∀ p, p <+: calls → releases p ≤ retains p
  total : releases calls = retains calls

/-! ## What is counted -/

/-- `_Block_release` counts the block. -/
def CountedWord (w : Flags) : Prop :=
  w &&& BLOCK_NEEDS_FREE ≠ 0 ∧ w &&& BLOCK_IS_GLOBAL = 0

instance (w : Flags) : Decidable (CountedWord w) :=
  inferInstanceAs (Decidable (_ ∧ _))

/-- The retain adds to the word: `_Block_copy` asks for `BLOCK_NEEDS_FREE`,
`_Block_tryRetain` asks for nothing. -/
def Increments (w : Flags) : RetainCall → Prop
  | .copy => w &&& BLOCK_NEEDS_FREE ≠ 0
  | .tryRetain => True
  | .release => False

instance (w : Flags) (call : RetainCall) : Decidable (Increments w call) := by
  cases call <;> unfold Increments <;> infer_instance

/-- The retains of a sequence that add to the word. -/
def increments (w : Flags) (calls : List RetainCall) : Nat :=
  calls.countP fun call => Increments w call

section Words

variable {v w : Flags}

theorem countedWord_congr (h : SameMeta v w) : CountedWord v ↔ CountedWord w := by
  rw [CountedWord, CountedWord, and_eq_of_high_eq h.high BLOCK_NEEDS_FREE (by decide),
    and_eq_of_high_eq h.high BLOCK_IS_GLOBAL (by decide)]

theorem increments_congr (h : SameMeta v w) : increments v = increments w := by
  funext calls
  have hfree := and_eq_of_high_eq h.high BLOCK_NEEDS_FREE (by decide)
  refine congrArg (List.countP · calls) (funext fun call => ?_)
  cases call with
  | copy => simp only [Increments, hfree]
  | tryRetain => rfl
  | release => rfl

theorem increments_le_retains (w : Flags) (calls : List RetainCall) :
    increments w calls ≤ retains calls := by
  refine List.countP_mono_left fun call _ h => ?_
  cases call with
  | copy => rfl
  | tryRetain => rfl
  | release => exact absurd (of_decide_eq_true h) id

theorem increments_prefix_le {p calls : List RetainCall} (h : p <+: calls) (w : Flags) :
    increments w p ≤ increments w calls :=
  h.sublist.countP_le

end Words

/-! ## One call -/

section Call

variable {env : Env} {s t : Mem} {a : Addr} {c : BlockCell}

/-- The copy of a stack block is another block, or `NULL`. -/
theorem blockCopyBody_stack {copyHelper : Addr → Addr → M Unit} {result : Addr} (hnull : a ≠ NULL)
    (hc : s.blocks a = some c) (hfree : c.layout.flags &&& BLOCK_NEEDS_FREE = 0)
    (hglobal : c.layout.flags &&& BLOCK_IS_GLOBAL = 0)
    (h : blockCopyBody env copyHelper a s = .ok (result, t)) : result = NULL ∨ result = s.next := by
  rw [blockCopyBody, if_neg hnull, bind_ok (loadBlock_ok hc), if_neg (not_not.2 hfree),
    if_neg (not_not.2 hglobal)] at h
  cases hm : env.mallocOk s.mallocs with
  | false =>
    rw [bind_ok (malloc_none hm)] at h
    exact Or.inl (congrArg Prod.fst (Except.ok.inj h)).symm
  | true =>
    rw [bind_ok (malloc_ok hm)] at h
    obtain ⟨_, _, _, h⟩ := StateFrame.bind_eq_ok h
    obtain ⟨_, _, _, h⟩ := StateFrame.bind_eq_ok h
    obtain ⟨_, _, _, h⟩ := StateFrame.bind_eq_ok h
    obtain ⟨_, _, _, h⟩ := StateFrame.bind_eq_ok h
    exact Or.inr (congrArg Prod.fst (Except.ok.inj h)).symm

/-- A retain that adds to the word. -/
theorem incrementing_call (env : Env) {call : RetainCall} (hnull : a ≠ NULL)
    (hc : s.blocks a = some c)
    (hlive : isDeallocating c.layout.flags = false) (hlt : refcount c.layout.flags < latched)
    (hinc : Increments c.layout.flags call) :
    ∃ v, call.run env a s = .ok (true, s.setBlock a (c.withFlags v)) ∧
      refcount v = refcount c.layout.flags + 1 ∧ SameMeta v c.layout.flags := by
  cases call with
  | copy =>
    obtain ⟨r, v, hrun, hcount, hmeta⟩ := incr_run_views c.layout.flags
    refine ⟨v, ?_, by omega, hmeta⟩
    have hfree : c.layout.flags &&& BLOCK_NEEDS_FREE ≠ 0 := hinc
    have hcopy : blockCopy env a s = .ok (a, s.setBlock a (c.withFlags v)) := by
      show blockCopyBody env _ a s = _
      rw [blockCopyBody, if_neg hnull, bind_ok (loadBlock_ok hc), if_pos hfree,
        bind_ok (loopBlockFlags_ok hc _ hrun), pure_apply]
    rw [RetainCall.run, bind_ok hcopy, pure_apply, decide_eq_true rfl]
  | tryRetain =>
    obtain ⟨v, hrun, hcount, hmeta⟩ := tryIncr_run hlive
    exact ⟨v, loopBlockFlags_ok hc _ hrun, by omega, hmeta⟩
  | release => exact hinc.elim

/-- The only retain that does not add to the word is a copy that returns the
block without a look at the count. -/
theorem quiet_retain {call : RetainCall} (hnull : a ≠ NULL) (hlt : a < s.next)
    (hc : s.blocks a = some c) (hret : call ≠ .release) (hinc : ¬Increments c.layout.flags call)
    (hrun : call.run env a s = .ok (true, t)) : t = s := by
  cases call with
  | copy =>
    have hfree : c.layout.flags &&& BLOCK_NEEDS_FREE = 0 := not_not.1 hinc
    obtain ⟨result, u, hcopy, hout⟩ := StateFrame.bind_eq_ok hrun
    obtain ⟨hsame, rfl⟩ := Prod.mk.inj (Except.ok.inj hout)
    replace hsame : result = a := of_decide_eq_true hsame
    have hbody : blockCopyBody env (copyHelper (blockObjectAssignN env (copyFuel s))) a s =
        .ok (result, u) := hcopy
    by_cases hglobal : c.layout.flags &&& BLOCK_IS_GLOBAL = 0
    · rcases blockCopyBody_stack hnull hc hfree hglobal hbody with h | h
      · exact absurd (hsame.symm.trans h) hnull
      · exact absurd (hsame.symm.trans h) (Nat.ne_of_lt hlt)
    · rw [blockCopyBody, if_neg hnull, bind_ok (loadBlock_ok hc), if_neg (not_not.2 hfree),
        if_pos hglobal, pure_apply] at hbody
      exact (congrArg Prod.snd (Except.ok.inj hbody)).symm
  | tryRetain => exact absurd trivial hinc
  | release => exact absurd rfl hret

/-- Giving up one reference of several. -/
theorem counted_release (env : Env) (hnull : a ≠ NULL) (hc : s.blocks a = some c)
    (hcounted : CountedWord c.layout.flags) (hlatch : refcount c.layout.flags < latched)
    (hshared : 1 < refcount c.layout.flags) :
    ∃ v, RetainCall.release.run env a s = .ok (true, s.setBlock a (c.withFlags v)) ∧
      refcount v + 1 = refcount c.layout.flags ∧ SameMeta v c.layout.flags := by
  obtain ⟨hcount, hmeta⟩ := sub_two_views (w := c.layout.flags) (by omega)
  refine ⟨c.layout.flags - 2, ?_, by omega, hmeta⟩
  have hrun := decr_run_shared (w := c.layout.flags) (by omega) hshared
  have hrelease : blockRelease a s = .ok ((), s.setBlock a (c.withFlags (c.layout.flags - 2))) := by
    rw [blockRelease, blockReleaseN, blockReleaseBody, if_neg hnull, bind_ok (loadBlock_ok hc),
      if_neg (not_not.2 hcounted.2),
      if_neg hcounted.1, bind_ok (loopBlockFlags_ok hc _ hrun)]
    rfl
  rw [RetainCall.run, bind_ok hrelease, pure_apply]

theorem uncounted_release (env : Env) (hnull : a ≠ NULL) (hc : s.blocks a = some c)
    (hcounted : ¬CountedWord c.layout.flags) :
    RetainCall.release.run env a s = .ok (true, s) := by
  have hrelease : blockRelease a s = .ok ((), s) := by
    rw [blockRelease, blockReleaseN, blockReleaseBody, if_neg hnull, bind_ok (loadBlock_ok hc)]
    by_cases hglobal : c.layout.flags &&& BLOCK_IS_GLOBAL = 0
    · have hfree : c.layout.flags &&& BLOCK_NEEDS_FREE = 0 := by
        by_contra h
        exact hcounted ⟨h, hglobal⟩
      rw [if_neg (not_not.2 hglobal), if_pos hfree, pure_apply]
    · rw [if_pos hglobal, pure_apply]
  rw [RetainCall.run, bind_ok hrelease, pure_apply]

/-- Every retain of a heap block adds to the word. -/
theorem CountedWord.increments {w : Flags} (h : CountedWord w) {call : RetainCall}
    (hret : call ≠ .release) : Increments w call := by
  cases call with
  | copy => exact h.1
  | tryRetain => trivial
  | release => exact absurd rfl hret

end Call

/-! ## Whole sequences -/

section Run

variable {env : Env} {s t : Mem} {a : Addr} {c : BlockCell} {calls : List RetainCall}

theorem retains_cons (call : RetainCall) (calls : List RetainCall) :
    retains (call :: calls) = retains [call] + retains calls :=
  @List.countP_append _ _ [call] calls

theorem releases_cons (call : RetainCall) (calls : List RetainCall) :
    releases (call :: calls) = releases [call] + releases calls :=
  @List.countP_append _ _ [call] calls

theorem increments_cons (w : Flags) (call : RetainCall) (calls : List RetainCall) :
    increments w (call :: calls) = increments w [call] + increments w calls :=
  @List.countP_append _ _ [call] calls

/-- What a call other than a release counts for. -/
theorem retains_single {call : RetainCall} (hret : call ≠ .release) :
    retains [call] = 1 ∧ releases [call] = 0 := by
  simp [retains, releases, hret]

theorem release_single : retains [.release] = 0 ∧ releases [.release] = 1 := by
  decide

theorem setBlock_withFlags_twice (s : Mem) (a : Addr) (c : BlockCell) (v w : Flags) :
    (s.setBlock a (c.withFlags v)).setBlock a ((c.withFlags v).withFlags w) =
      s.setBlock a (c.withFlags w) := by
  simp [Mem.setBlock, BlockCell.withFlags]

/-- The count of a heap block follows the calls.  `hshared` says that no
release gives up the last reference. -/
theorem counted_run (hnull : a ≠ NULL) (hrun : Succeeds env a s calls t)
    (hc : s.blocks a = some c) (hcounted : CountedWord c.layout.flags)
    (hlive : isDeallocating c.layout.flags = false)
    (hlatch : refcount c.layout.flags + retains calls < latched)
    (hshared : ∀ p, p <+: calls → releases p < refcount c.layout.flags + retains p) :
    ∃ v, t = s.setBlock a (c.withFlags v) ∧ SameMeta v c.layout.flags ∧
      refcount v + releases calls = refcount c.layout.flags + retains calls := by
  induction hrun generalizing c with
  | nil s => exact ⟨c.layout.flags, by rw [c.withFlags_flags, Mem.setBlock_same hc],
      SameMeta.refl _, rfl⟩
  | @cons s u t call calls head _ ih =>
    -- One call changes the word of the block; the rest starts from the new word.
    have hstep : ∃ v, call.run env a s = .ok (true, s.setBlock a (c.withFlags v)) ∧
        SameMeta v c.layout.flags ∧ (refcount v + releases [call] =
          refcount c.layout.flags + retains [call]) := by
      by_cases hret : call = .release
      · subst hret
        have hone := release_single
        have hlt := hshared [.release] ⟨calls, rfl⟩
        obtain ⟨v, hv, hcount, hmeta⟩ := counted_release env hnull hc hcounted (by omega)
          (by omega)
        exact ⟨v, hv, hmeta, by omega⟩
      · have hone := retains_single hret
        rw [retains_cons] at hlatch
        obtain ⟨v, hv, hcount, hmeta⟩ := incrementing_call env hnull hc hlive (by omega)
          (hcounted.increments hret)
        exact ⟨v, hv, hmeta, by omega⟩
    obtain ⟨v, hv, hmeta, hcount⟩ := hstep
    obtain rfl : s.setBlock a (c.withFlags v) = u :=
      congrArg Prod.snd (Except.ok.inj (hv.symm.trans head))
    rw [retains_cons] at hlatch
    have hbelow := hshared [call] ⟨calls, rfl⟩
    obtain ⟨w, rfl, hmeta', hcount'⟩ := ih (c := c.withFlags v) (Mem.setBlock_blocks_self ..)
      ((countedWord_congr hmeta).2 hcounted) (hmeta.dealloc.trans hlive)
      (by
        show refcount v + retains calls < latched
        omega)
      (fun p hp => by
        have hlt := hshared (call :: p) (List.cons_prefix_cons.2 ⟨rfl, hp⟩)
        rw [releases_cons, retains_cons] at hlt
        show releases p < refcount v + retains p
        omega)
    refine ⟨w, setBlock_withFlags_twice s a c v w, hmeta'.trans hmeta, ?_⟩
    replace hcount' : refcount w + releases calls = refcount v + retains calls := hcount'
    rw [releases_cons, retains_cons]
    omega

/-- The count of any other block follows the retains that add to the word. -/
theorem uncounted_run (hnull : a ≠ NULL) (hlt : a < s.next) (hrun : Succeeds env a s calls t)
    (hc : s.blocks a = some c) (hcounted : ¬CountedWord c.layout.flags)
    (hlive : isDeallocating c.layout.flags = false)
    (hlatch : refcount c.layout.flags + retains calls < latched) :
    ∃ v, t = s.setBlock a (c.withFlags v) ∧ SameMeta v c.layout.flags ∧
      refcount v = refcount c.layout.flags + increments c.layout.flags calls := by
  induction hrun generalizing c with
  | nil s => exact ⟨c.layout.flags, by rw [c.withFlags_flags, Mem.setBlock_same hc],
      SameMeta.refl _, rfl⟩
  | @cons s u t call calls head _ ih =>
    rw [retains_cons] at hlatch
    have hstep : ∃ v, s.setBlock a (c.withFlags v) = u ∧ SameMeta v c.layout.flags ∧
        refcount v = refcount c.layout.flags + increments c.layout.flags [call] := by
      have hsame : s.setBlock a (c.withFlags c.layout.flags) = s := Mem.setBlock_same hc
      by_cases hinc : Increments c.layout.flags call
      · have hone : increments c.layout.flags [call] = 1 := by simp [increments, hinc]
        have hle := increments_le_retains c.layout.flags [call]
        obtain ⟨v, hv, hcount, hmeta⟩ := incrementing_call env hnull hc hlive (by omega)
          hinc
        exact ⟨v, congrArg Prod.snd (Except.ok.inj (hv.symm.trans head)), hmeta, by omega⟩
      · have hnone : increments c.layout.flags [call] = 0 := by simp [increments, hinc]
        refine ⟨c.layout.flags, hsame.trans ?_, SameMeta.refl _, by omega⟩
        by_cases hret : call = .release
        · subst hret
          have hrelease := uncounted_release env hnull hc hcounted
          exact congrArg Prod.snd (Except.ok.inj (hrelease.symm.trans head))
        · exact (quiet_retain hnull hlt hc hret hinc head).symm
    obtain ⟨v, rfl, hmeta, hcount⟩ := hstep
    have hle := increments_le_retains c.layout.flags [call]
    obtain ⟨w, rfl, hmeta', hcount'⟩ := ih (c := c.withFlags v) hlt (Mem.setBlock_blocks_self ..)
      (fun h => hcounted ((countedWord_congr hmeta).1 h)) (hmeta.dealloc.trans hlive)
      (by
        show refcount v + retains calls < latched
        omega)
    refine ⟨w, setBlock_withFlags_twice s a c v w, hmeta'.trans hmeta, ?_⟩
    replace hcount' : refcount w = refcount v + increments v calls := hcount'
    rw [increments_congr hmeta] at hcount'
    rw [increments_cons]
    omega

end Run

/-! ## Neutral sequences -/

/-- The flags word of a block. -/
def flagsAt (s : Mem) (a : Addr) : Option Flags := (s.blocks a).map fun c => c.layout.flags

/-- The calls leave the block as it was, and nothing happens to the outside: no
helper runs and nothing is freed.  The word of a block that is not on the heap
is not written at any point. -/
structure Neutral (env : Env) (a : Addr) (s : Mem) (calls : List RetainCall) (t : Mem) : Prop where
  flags : flagsAt t a = flagsAt s a
  trace : t.trace = s.trace
  untouched : ∀ w, flagsAt s a = some w → ¬CountedWord w →
    ∀ p u, p <+: calls → Succeeds env a s p u → flagsAt u a = some w

/-- A heap block, or a sequence without a retain that adds to the word of a
block that `_Block_release` does not count. -/
def NeutralWhen (w : Flags) (calls : List RetainCall) : Prop :=
  CountedWord w ∨ .tryRetain ∉ calls ∧ (w &&& BLOCK_NEEDS_FREE ≠ 0 → .copy ∉ calls)

section Neutral

variable {env : Env} {s t : Mem} {a : Addr} {c : BlockCell} {calls : List RetainCall}

theorem flagsAt_setBlock (s : Mem) (a : Addr) (c : BlockCell) (w : Flags) :
    flagsAt (s.setBlock a (c.withFlags w)) a = some w := by
  rw [flagsAt, Mem.setBlock_blocks_self]
  rfl

theorem flagsAt_of_some (hc : s.blocks a = some c) : flagsAt s a = some c.layout.flags := by
  rw [flagsAt, hc]
  rfl

/-- The second case of `NeutralWhen`: no retain adds to the word. -/
theorem increments_eq_zero_iff (w : Flags) (calls : List RetainCall) :
    increments w calls = 0 ↔
      .tryRetain ∉ calls ∧ (w &&& BLOCK_NEEDS_FREE ≠ 0 → .copy ∉ calls) := by
  rw [increments, List.countP_eq_zero]
  constructor
  · intro h
    refine ⟨fun hmem => ?_, fun hfree hmem => ?_⟩
    · exact h .tryRetain hmem (decide_eq_true trivial)
    · exact h .copy hmem (decide_eq_true hfree)
  · rintro ⟨htry, hcopy⟩ call hmem h
    cases call with
    | copy => exact hcopy (of_decide_eq_true h) hmem
    | tryRetain => exact htry hmem
    | release => exact of_decide_eq_true h

/-- Matched retains and releases are neutral for exactly these blocks and
sequences. -/
theorem matched_neutral_iff (hnull : a ≠ NULL) (hlt : a < s.next) (hc : s.blocks a = some c)
    (hlive : isDeallocating c.layout.flags = false)
    (hheap : CountedWord c.layout.flags → 1 ≤ refcount c.layout.flags)
    (hmatched : MatchedCalls calls) (hlatch : refcount c.layout.flags + retains calls < latched)
    (hrun : Succeeds env a s calls t) :
    Neutral env a s calls t ↔ NeutralWhen c.layout.flags calls := by
  have hfirst := flagsAt_of_some hc
  by_cases hcounted : CountedWord c.layout.flags
  · refine iff_of_true ?_ (Or.inl hcounted)
    have hpos := hheap hcounted
    obtain ⟨v, rfl, hmeta, hcount⟩ := counted_run hnull hrun hc hcounted hlive hlatch
      fun p hp => by
        have hle := hmatched.before p hp
        omega
    have htotal := hmatched.total
    have hsame : v = c.layout.flags := flags_ext (by omega) hmeta.dealloc hmeta.high
    refine ⟨by rw [flagsAt_setBlock, hfirst, hsame], rfl, fun w hw hnot => ?_⟩
    rw [hfirst, Option.some.injEq] at hw
    exact absurd (hw ▸ hcounted) hnot
  · have hwhen : NeutralWhen c.layout.flags calls ↔ increments c.layout.flags calls = 0 := by
      rw [increments_eq_zero_iff, NeutralWhen]
      exact or_iff_right hcounted
    rw [hwhen]
    constructor
    · intro hneutral
      obtain ⟨v, rfl, _, hcount⟩ := uncounted_run hnull hlt hrun hc hcounted hlive hlatch
      have hsame := hneutral.flags
      rw [flagsAt_setBlock, hfirst, Option.some.injEq] at hsame
      rw [hsame] at hcount
      omega
    · intro hnone
      -- A prefix has no such retain either, so its end has the same word.
      have hpoint : ∀ p u, p <+: calls → Succeeds env a s p u →
          flagsAt u a = flagsAt s a ∧ u.trace = s.trace := by
        intro p u hp hu
        have hle := increments_prefix_le hp c.layout.flags
        have hretains : retains p ≤ retains calls := hp.sublist.countP_le
        obtain ⟨v, rfl, hmeta, hcount⟩ := uncounted_run hnull hlt hu hc hcounted hlive (by omega)
        have hsame : v = c.layout.flags := flags_ext (by omega) hmeta.dealloc hmeta.high
        exact ⟨by rw [flagsAt_setBlock, hfirst, hsame], rfl⟩
      obtain ⟨hflags, htrace⟩ := hpoint calls t List.prefix_rfl hrun
      exact ⟨hflags, htrace, fun w hw _ p u hp hu => (hpoint p u hp hu).1.trans hw⟩

end Neutral

/-! ## A global block -/

def globalLiteral : BlockLayout where
  isa := .globalBlock
  flags := BLOCK_IS_GLOBAL
  reserved := 0
  invoke := 300
  descriptor := [0, 32]
  captured := []

/-- One global block, at address 1. -/
def globalOnly : Mem := Mem.empty.newBlock ⟨.global, globalLiteral⟩

theorem matchedCalls_pair {call : RetainCall} (h : call ≠ .release) :
    MatchedCalls [call, .release] where
  before p hp := by
    cases call with
    | release => exact absurd rfl h
    | copy | tryRetain =>
      rcases List.prefix_cons_iff.1 hp with rfl | ⟨q, rfl, hq⟩
      · decide
      · rcases List.prefix_cons_iff.1 hq with rfl | ⟨r, rfl, hr⟩
        · decide
        · rw [List.prefix_nil.1 hr]
          decide
  total := by simp [retains, releases, h]

/-- Copying a global block and releasing the copy is neutral. -/
theorem matched_neutral_global_copy :
    Neutral plentiful 1 globalOnly [.copy, .release] globalOnly :=
  (matched_neutral_iff (a := 1) (c := ⟨.global, globalLiteral⟩) (by decide) (by decide) rfl
    (by decide) (by decide) (matchedCalls_pair (by decide)) (by decide)
    (.cons rfl (.cons rfl (.nil _)))).2 (Or.inr ⟨by decide, by decide⟩)

/-- `_Block_tryRetain` adds to the word of a global block, and the matching
`_Block_release` returns early. -/
theorem not_neutral_global_tryRetain :
    ∃ t, globalOnly.blocks 1 = some ⟨.global, globalLiteral⟩ ∧
      isDeallocating globalLiteral.flags = false ∧
      refcount globalLiteral.flags + retains [.tryRetain, .release] < latched ∧
      MatchedCalls [.tryRetain, .release] ∧
      Succeeds plentiful 1 globalOnly [.tryRetain, .release] t ∧
      ¬Neutral plentiful 1 globalOnly [.tryRetain, .release] t := by
  refine ⟨globalOnly.setBlock 1 ⟨.global, { globalLiteral with flags := BLOCK_IS_GLOBAL + 2 }⟩,
    rfl, by decide, by decide, matchedCalls_pair (by decide), .cons rfl (.cons rfl (.nil _)),
    fun h => ?_⟩
  have hflags := h.flags
  rw [flagsAt, Mem.setBlock_blocks_self, Option.map_some] at hflags
  exact absurd hflags (by decide)

end BlocksRuntime
