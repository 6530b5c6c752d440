import BlocksRuntime.Threads.Safety
import Mathlib.Algebra.Order.BigOperators.Group.List

/-!
# Progress under every interleaving

A retry loop may lose its compare-and-swap as often as other threads are
faster.  Yet the threads cannot keep each other busy forever: a swap that wins
ends its loop, and releases only tear down what there is.

* `Frame.base` counts the steps of an activation and of all that it calls,
  when no swap is lost.  A deallocation is paid for by `reserve`, which the
  record carries while it is live.
* `Frame.penalty` are the steps that a lost swap costs.  One store costs every
  other thread at most one lost swap, and `budget` pays for that.
* `advance_lt` says that every step lowers `Machine.potential`.
* `threads_bounded` bounds the steps of any run by its number of calls, and
  `threads_finish` says that the calls in progress return if no new ones come.
-/

namespace BlocksRuntime.Threads

open Ownership RetryLoop

/-! ## The cost of an activation -/

/-- A dispose helper with `n` captured variables left. -/
def fieldsCost (budget n : Nat) : Nat := 1 + n * (budget + 7)

/-- What a deallocation costs. -/
def reserve (budget : Nat) (s₀ : Mem) : Ref → Nat
  | .block a =>
    match s₀.blocks a with
    | some c => fieldsCost budget c.layout.captured.length + budget + 3
    | none => 0
  | .byref _ => 2 * budget + 9
  | .object _ => 0

namespace Frame

/-- The steps of an activation and of all that it calls.  A store also pays for the swaps
that it makes other threads lose. -/
def base (budget : Nat) (s₀ : Mem) : Frame → Nat
  | .objectDispose _ _ => budget + 6
  | .release _ => budget + 4
  | .releaseNeedsFree _ => budget + 3
  | .callDisposeHelper aBlock => reserve budget s₀ (.block aBlock)
  | .destructInstance _ => budget + 2
  | .freeBlock _ => budget + 1
  | .byrefRelease _ => budget + 5
  | .byrefReleaseNeedsFree _ => budget + 4
  | .byrefReleaseAssert _ => budget + 3
  | .byrefHasDispose byref => reserve budget s₀ (.byref byref)
  | .byrefDestroy _ => 2 * budget + 8
  | .freeByref _ => budget + 1
  | .decrRead _ => budget + 2
  | .decrSwap _ _ => budget + 1
  | .disposeFields xs => fieldsCost budget xs.length
  | .objectAssign _ _ => budget + 7
  | .copy _ => budget + 3
  | .copyIsGlobal _ => 2
  | .byrefCopy _ => budget + 6
  | .byrefCopyNeedsFree _ => budget + 5
  | .byrefCopyReturn _ => 1
  | .incrRead _ => budget + 2
  | .incrSwap _ _ => budget + 1
  | .leave _ => 1

/-- A swap that finds another word than the one it has read. -/
def penalty (s : Mem) : Frame → Nat
  | .decrSwap r a => if (recordAt s r).map HeapRecord.word = some a.old then 0 else 2
  | .incrSwap r a => if (recordAt s r).map HeapRecord.word = some a.old then 0 else 2
  | _ => 0

def isSwap : Frame → Bool
  | .decrSwap _ _ | .incrSwap _ _ => true
  | _ => false

theorem penalty_le (s : Mem) (f : Frame) : f.penalty s ≤ 2 := by
  cases f <;> simp only [penalty] <;> try exact Nat.zero_le 2
  all_goals split <;> omega

theorem penalty_eq_zero {f : Frame} (s : Mem) (h : f.isSwap = false) : f.penalty s = 0 := by
  cases f <;> first | rfl | cases h

theorem penalty_congr {s t : Mem} (h : SameCells s t) (f : Frame) :
    f.penalty t = f.penalty s := by
  cases f <;> simp only [penalty, h.recordAt]

end Frame

def stackBase (budget : Nat) (s₀ : Mem) (fs : List Frame) : Nat :=
  (fs.map (Frame.base budget s₀)).sum

def stackPenalty (s : Mem) (fs : List Frame) : Nat := (fs.map (Frame.penalty s)).sum

section

variable {budget : Nat} {s₀ s t : Mem} {f : Frame} {fs gs : List Frame}

@[simp] theorem stackBase_nil : stackBase budget s₀ [] = 0 := rfl

@[simp] theorem stackBase_cons :
    stackBase budget s₀ (f :: fs) = f.base budget s₀ + stackBase budget s₀ fs := by
  simp [stackBase]

@[simp] theorem stackBase_append :
    stackBase budget s₀ (fs ++ gs) = stackBase budget s₀ fs + stackBase budget s₀ gs := by
  simp [stackBase]

@[simp] theorem stackPenalty_nil : stackPenalty s [] = 0 := rfl

@[simp] theorem stackPenalty_cons :
    stackPenalty s (f :: fs) = f.penalty s + stackPenalty s fs := by
  simp [stackPenalty]

@[simp] theorem stackPenalty_append :
    stackPenalty s (fs ++ gs) = stackPenalty s fs + stackPenalty s gs := by
  simp [stackPenalty]

theorem stackPenalty_congr (h : SameCells s t) (fs : List Frame) :
    stackPenalty t fs = stackPenalty s fs := by
  rw [stackPenalty, funext (Frame.penalty_congr h), stackPenalty]

/-- Only the top activation may be a swap. -/
def Settled (fs : List Frame) : Prop := ∀ f ∈ fs, f.isSwap = false

theorem stackPenalty_settled (h : Settled fs) (s : Mem) : stackPenalty s fs = 0 := by
  induction fs with
  | nil => rfl
  | cons f fs ih =>
    rw [stackPenalty_cons, Frame.penalty_eq_zero s (h f List.mem_cons_self),
      ih fun g hg => h g (List.mem_cons_of_mem f hg)]

end

/-! ## Steps that store nothing -/

/-- A computation that reads and logs only. -/
def Reads {β : Type} (x : M β) : Prop := ∀ s b t, x s = .ok (b, t) → SameCells s t

/-- A computation that reads and logs only, and goes on with activations that
cost less than `n`. -/
def Leads (budget : Nat) (s₀ : Mem) (n : Nat) (x : M (List Frame × Multiset Ref)) : Prop :=
  ∀ s out t, x s = .ok (out, t) →
    SameCells s t ∧ Settled out.1 ∧ stackBase budget s₀ out.1 < n

section

variable {budget n : Nat} {s₀ : Mem} {β : Type}

theorem Reads.loadBlock (a : Addr) : Reads (loadBlock a) := fun s b t h => by
  obtain ⟨rfl, _⟩ := loadBlock_inv h
  exact .refl _

theorem Reads.loadByref (a : Addr) : Reads (loadByref a) := fun s b t h => by
  obtain ⟨rfl, _⟩ := loadByref_inv h
  exact .refl _

theorem Reads.wordAt (words : List Word) (i : Nat) : Reads (wordAt words i) := fun s b t h => by
  cases hw : words[i]? with
  | none =>
    simp only [BlocksRuntime.wordAt, hw] at h
    cases h
  | some w =>
    rw [wordAt_ok hw] at h
    obtain ⟨_, rfl⟩ := Prod.mk.inj (Except.ok.inj h)
    exact .refl _

theorem Reads.log (e : Event) : Reads (log e) := fun s b t h => by
  obtain ⟨_, rfl⟩ := Prod.mk.inj (Except.ok.inj h)
  exact .log s e

theorem Leads.pure {out : List Frame × Multiset Ref} (hs : Settled out.1)
    (h : stackBase budget s₀ out.1 < n) : Leads budget s₀ n (pure out) := fun s out' t hrun => by
  obtain ⟨rfl, rfl⟩ := Prod.mk.inj (Except.ok.inj hrun)
  exact ⟨.refl _, hs, h⟩

theorem Leads.bind {x : M β} {k : β → M (List Frame × Multiset Ref)} (hx : Reads x)
    (hk : ∀ b, Leads budget s₀ n (k b)) : Leads budget s₀ n (x >>= k) := fun s out t hrun => by
  rw [bind_apply] at hrun
  cases hxs : x s with
  | error e =>
    rw [hxs] at hrun
    cases hrun
  | ok bu =>
    obtain ⟨b, u⟩ := bu
    rw [hxs] at hrun
    obtain ⟨hc, hs, hlt⟩ := hk b u out t hrun
    have hsu := hx s b u hxs
    exact ⟨⟨hc.blocks.trans hsu.blocks, hc.byrefs.trans hsu.byrefs, hc.next.trans hsu.next⟩, hs,
      hlt⟩

theorem Leads.ite {p : Prop} [Decidable p] {x y : M (List Frame × Multiset Ref)}
    (hx : Leads budget s₀ n x) (hy : Leads budget s₀ n y) :
    Leads budget s₀ n (if p then x else y) := by
  split
  · exact hx
  · exact hy

theorem Leads.fault {e : Fault} : Leads budget s₀ n (fault e) := fun s out t h => by cases h

/-- The activations that touch no flags word of their own accord. -/
def Frame.plainStep : Frame → Bool
  | .callDisposeHelper _ | .freeBlock _ | .freeByref _ | .decrRead _ | .decrSwap _ _
  | .incrRead _ | .incrSwap _ _ => false
  | _ => true

theorem Leads.disposeFields (budget : Nat) (s₀ : Mem) (xs : List Capture) :
    Leads budget s₀ (fieldsCost budget xs.length) (Frame.disposeFields xs).step := by
  cases xs with
  | nil => exact .pure (by simp [Settled]) (by simp [fieldsCost])
  | cons x xs =>
    rw [Frame.step]
    split
    · refine .pure (by simp [Settled, Frame.isSwap]) ?_
      simp [Frame.base, fieldsCost, Nat.add_mul]
    · refine .pure (by simp [Settled, Frame.isSwap]) ?_
      simp [Frame.base, fieldsCost, Nat.add_mul]
      omega

/-- A step that touches no flags word goes on with something cheaper. -/
theorem Frame.leads {f : Frame} (hf : f.plainStep = true) :
    Leads budget s₀ (f.base budget s₀) f.step := by
  cases f with
  | callDisposeHelper _ => cases hf
  | freeBlock _ => cases hf
  | freeByref _ => cases hf
  | decrRead _ => cases hf
  | decrSwap _ _ => cases hf
  | incrRead _ => cases hf
  | incrSwap _ _ => cases hf
  | disposeFields xs => exact .disposeFields budget s₀ xs
  | objectDispose object flags =>
    rw [Frame.step]
    split
    · exact .pure (by simp [Settled, isSwap]) (by simp [base])
    · exact .pure (by simp [Settled, isSwap]) (by simp [base])
    · exact .pure (by simp [Settled, isSwap]) (by simp [base])
    · exact .bind (.log _) fun _ => .pure (by simp [Settled]) (by simp [base])
    · exact .pure (by simp [Settled]) (by simp [base])
  | release arg =>
    refine .ite (.pure (by simp [Settled]) (by simp [base])) (.bind (.loadBlock _) fun b =>
      .ite (.pure (by simp [Settled]) (by simp [base])) (.pure ?_ (by simp [base])))
    simp [Settled, isSwap]
  | releaseNeedsFree arg =>
    refine .bind (.loadBlock _) fun b => .ite (.pure (by simp [Settled]) (by simp [base]))
      (.pure ?_ (by simp [base]))
    simp [Settled, isSwap]
  | destructInstance aBlock =>
    exact .bind (.log _) fun _ => .pure (by simp [Settled, isSwap]) (by simp [base])
  | byrefRelease arg =>
    exact .bind (.loadByref _) fun b => .pure (by simp [Settled, isSwap]) (by simp [base])
  | byrefReleaseNeedsFree byref =>
    exact .bind (.loadByref _) fun b => .ite (.pure (by simp [Settled, isSwap]) (by simp [base]))
      (.pure (by simp [Settled]) (by simp [base]))
  | byrefReleaseAssert byref =>
    refine .bind (.loadByref _) fun b => .ite (.bind ?_ fun _ => ?_) ?_
    · exact fun s _ t h => by cases h
    · exact .pure (by simp [Settled, isSwap]) (by simp [base])
    · exact .pure (by simp [Settled, isSwap]) (by simp [base])
  | byrefHasDispose byref =>
    refine .bind (.loadByref _) fun b => .ite (.pure (by simp [Settled, isSwap]) ?_)
      (.pure (by simp [Settled, isSwap]) ?_)
    · simp [base, reserve]
    · simp [base, reserve]
      omega
  | byrefDestroy byref =>
    refine .bind (.log _) fun _ => .bind (.loadByref _) fun record => ?_
    split
    · exact .fault
    · split
      · refine .bind (.wordAt _ _) fun w => .pure (by simp [Settled, isSwap]) ?_
        simp [base]
        omega
      · refine .bind (.wordAt _ _) fun w => .pure (by simp [Settled, isSwap]) ?_
        simp [base]
        omega
  | objectAssign object flags =>
    rw [Frame.step]
    split
    · exact .pure (by simp [Settled, isSwap]) (by simp [base])
    · exact .pure (by simp [Settled, isSwap]) (by simp [base])
    · exact .pure (by simp [Settled, isSwap]) (by simp [base])
    · exact .bind (.log _) fun _ => .pure (by simp [Settled]) (by simp [base])
    · exact .pure (by simp [Settled]) (by simp [base])
  | copy arg =>
    refine .ite (.pure (by simp [Settled]) (by simp [base])) (.bind (.loadBlock _) fun b =>
      .ite (.pure ?_ (by simp [base])) (.pure ?_ (by simp [base])))
    · simp [Settled, isSwap]
    · simp [Settled, isSwap]
  | copyIsGlobal aBlock =>
    exact .bind (.loadBlock _) fun b => .ite (.pure (by simp [Settled]) (by simp [base]))
      (.pure (by simp [Settled, isSwap]) (by simp [base]))
  | byrefCopy arg =>
    refine .bind (.loadByref _) fun src => .bind (.loadByref _) fun target =>
      .ite (.pure ?_ (by simp [base])) (.pure ?_ (by simp [base]))
    · simp [Settled, isSwap]
    · simp [Settled, isSwap]
  | byrefCopyNeedsFree arg =>
    refine .bind (.loadByref _) fun src => .bind (.loadByref _) fun target =>
      .ite (.pure ?_ (by simp [base])) (.pure ?_ (by simp [base]))
    · simp [Settled, isSwap]
    · simp [Settled, isSwap]
  | byrefCopyReturn arg =>
    exact .bind (.loadByref _) fun _ => .pure (by simp [Settled]) (by simp [base])
  | leave arg => exact .fault

end

/-! ## What the live records have in reserve -/

/-- The deallocations that are still to come. -/
def liveReserve (budget : Nat) (s₀ s : Mem) : Nat :=
  ∑ r ∈ (sharedGraph s).support, reserve budget s₀ r

section

variable {budget : Nat} {s₀ s t : Mem} {f : Frame} {gs : List Frame} {gained : Multiset Ref}
  {r : Ref} {x : HeapRecord} {w : Flags}

theorem liveReserve_congr (h : sharedGraph t = sharedGraph s) :
    liveReserve budget s₀ t = liveReserve budget s₀ s := by
  rw [liveReserve, h, liveReserve]

theorem liveReserve_setWord_live (hrep : SharedRep s) (hx : recordAt s r = some x) (hl : x.Live)
    (hlive : HeapRecord.Live { x with word := w }) :
    liveReserve budget s₀ (Mem.setWord s r w) = liveReserve budget s₀ s := by
  have hmem := Graph.mem_support_of_node (hrep.node hx hl)
  rw [liveReserve, sharedGraph_setWord_live hx (hrep.lt hx) hlive, liveReserve]
  exact congrArg (fun S => ∑ r ∈ S, reserve budget s₀ r) (Finset.insert_eq_of_mem hmem)

theorem liveReserve_setWord_dying (budget : Nat) (s₀ : Mem) (hrep : SharedRep s)
    (hx : recordAt s r = some x) (hl : x.Live) (hd : HeapRecord.Dying { x with word := w }) :
    liveReserve budget s₀ (Mem.setWord s r w) + reserve budget s₀ r = liveReserve budget s₀ s := by
  rw [liveReserve, sharedGraph_setWord_dying hx hd, liveReserve]
  exact Finset.sum_erase_add _ _ (Graph.mem_support_of_node (hrep.node hx hl))

/-! ## The steps on flags words -/

/-- How a step lowers the cost. -/
inductive Frame.Progress (budget : Nat) (s₀ s : Mem) (f : Frame) (gs : List Frame) (t : Mem) :
    Prop where
  | still (hc : SameCells s t) (hs : Settled gs.tail)
      (hlt : stackBase budget s₀ gs + stackPenalty t gs < f.base budget s₀ + f.penalty s)
  /-- A store may cost the other threads a lost swap each. -/
  | stored (hs : Settled gs)
      (hlt : liveReserve budget s₀ t + stackBase budget s₀ gs + budget <
        liveReserve budget s₀ s + f.base budget s₀)

theorem Leads.progress (h : Leads budget s₀ (f.base budget s₀) f.step)
    (hrun : f.step s = .ok ((gs, gained), t)) : f.Progress budget s₀ s gs t := by
  obtain ⟨hc, hs, hlt⟩ := h s _ t hrun
  refine .still hc (fun g hg => hs g (List.mem_of_mem_tail hg)) ?_
  rw [stackPenalty_settled hs]
  exact hlt.trans_le (Nat.le_add_right _ _)

/-- A run that is known. -/
theorem step_eq {out : List Frame × Multiset Ref} {u : Mem}
    (hrun : f.step s = .ok ((gs, gained), t))
    (h : f.step s = .ok (out, u)) : gs = out.1 ∧ t = u := by
  rw [hrun] at h
  obtain ⟨rfl, rfl⟩ := Prod.mk.inj (Except.ok.inj h)
  exact ⟨rfl, rfl⟩

theorem callDisposeHelper_progress {a : Addr} (hs : Sane s₀ s)
    (hok : (Frame.callDisposeHelper a).Ok s₀ s)
    (hrun : (Frame.callDisposeHelper a).step s = .ok ((gs, gained), t)) :
    (Frame.callDisposeHelper a).Progress budget s₀ s gs t := by
  obtain ⟨c, hc, _⟩ := (hok.condemned (.block a) (Multiset.mem_singleton_self _)).block
  obtain ⟨c₀, w, hc₀, rfl, _⟩ := hs.fades.block a c hc
  have hcost : (Frame.callDisposeHelper a).base budget s₀ =
      fieldsCost budget c₀.layout.captured.length + budget + 3 := by
    simp [Frame.base, reserve, hc₀]
  rw [Frame.step, bind_ok (loadBlock_ok hc)] at hrun
  -- either way the step only reads and logs
  obtain ⟨hsame, hsettled, hlt⟩ : SameCells s t ∧ Settled gs ∧ stackBase budget s₀ gs <
      (Frame.callDisposeHelper a).base budget s₀ := by
    cases hdesc : blockDescriptor2 (c₀.withFlags w).layout with
    | none =>
      rw [hdesc] at hrun
      refine Leads.pure ?_ ?_ s _ t hrun
      · simp [Settled, Frame.isSwap]
      · rw [hcost]
        simp only [stackBase_cons, stackBase_nil, Frame.base]
        omega
    | some desc =>
      rw [hdesc] at hrun
      refine Leads.bind (.wordAt _ _) (fun _ => .bind (.log _) fun _ => .pure ?_ ?_) s _ t hrun
      · simp [Settled, Frame.isSwap]
      · rw [hcost]
        simp only [stackBase_cons, stackBase_nil, Frame.base, BlockCell.withFlags]
        omega
  refine .still hsame (fun g hg => hsettled g (List.mem_of_mem_tail hg)) ?_
  rw [stackPenalty_settled hsettled]
  exact hlt.trans_le (Nat.le_add_right _ _)

theorem free_progress {f : Frame} {e : Event} (hx : recordAt s r = some x) (hd : x.Dying)
    (hrun : f.step s = .ok ((gs, gained), t))
    (h : f.step s = .ok (([], 0), (Mem.eraseRecord s r).log e))
    (hbase : f.base budget s₀ = budget + 1) : f.Progress budget s₀ s gs t := by
  obtain ⟨rfl, rfl⟩ := step_eq hrun h
  refine .stored (fun g hg => by cases hg) ?_
  rw [liveReserve_congr ((SameCells.log _ e).sharedGraph.trans (sharedGraph_eraseRecord hx hd)),
    hbase, stackBase_nil]
  omega

theorem decrRead_progress (hs : Sane s₀ s) (hok : (Frame.decrRead r).Ok s₀ s)
    (ht : Target s₀ s r) (hrun : (Frame.decrRead r).step s = .ok ((gs, gained), t)) :
    (Frame.decrRead r).Progress budget s₀ s gs t := by
  obtain ⟨x, hx, _, _⟩ := ht.live hs hok.static
  rw [Frame.step, bind_ok (loadWord_ok hx)] at hrun
  cases hd : latchingDecrIntShouldDeallocate x.word with
  | exit result =>
    obtain ⟨rfl, _⟩ := decr_exit hd
    rw [hd] at hrun
    obtain ⟨hout, rfl⟩ := Prod.mk.inj (Except.ok.inj hrun)
    obtain ⟨rfl, _⟩ := Prod.mk.inj hout
    refine .still (.refl _) (fun g hg => by cases hg) ?_
    simp [afterDecr, stackPenalty, Frame.base, Frame.penalty]
  | cas newValue result =>
    rw [hd] at hrun
    obtain ⟨hout, rfl⟩ := Prod.mk.inj (Except.ok.inj hrun)
    obtain ⟨rfl, _⟩ := Prod.mk.inj hout
    refine .still (.refl _) (fun g hg => by cases hg) ?_
    simp [stackPenalty, Frame.base, Frame.penalty, hx]

theorem incrRead_progress (hs : Sane s₀ s) (hok : (Frame.incrRead r).Ok s₀ s)
    (ht : Target s₀ s r) (hrun : (Frame.incrRead r).step s = .ok ((gs, gained), t)) :
    (Frame.incrRead r).Progress budget s₀ s gs t := by
  obtain ⟨x, hx, _, _⟩ := ht.live hs hok.static
  rw [Frame.step, bind_ok (loadWord_ok hx)] at hrun
  cases hd : latchingIncrInt x.word with
  | exit result =>
    rw [hd] at hrun
    obtain ⟨hout, rfl⟩ := Prod.mk.inj (Except.ok.inj hrun)
    obtain ⟨rfl, _⟩ := Prod.mk.inj hout
    refine .still (.refl _) (fun g hg => by cases hg) ?_
    simp [stackPenalty, Frame.base, Frame.penalty]
  | cas newValue result =>
    rw [hd] at hrun
    obtain ⟨hout, rfl⟩ := Prod.mk.inj (Except.ok.inj hrun)
    obtain ⟨rfl, _⟩ := Prod.mk.inj hout
    refine .still (.refl _) (fun g hg => by cases hg) ?_
    simp [stackPenalty, Frame.base, Frame.penalty, hx]

theorem decrSwap_progress {a : Swap Flags Bool} (hs : Sane s₀ s)
    (hok : (Frame.decrSwap r a).Ok s₀ s) (ht : Target s₀ s r)
    (hrun : (Frame.decrSwap r a).step s = .ok ((gs, gained), t)) :
    (Frame.decrSwap r a).Progress budget s₀ s gs t := by
  obtain ⟨hext, hd⟩ := hok.static
  obtain ⟨x, hx, hl, _⟩ := ht.live hs hext
  have hrep := hs.fades.rep hs.rep
  rw [Frame.step, bind_ok (loadWord_ok hx)] at hrun
  by_cases hw : x.word = a.old
  · rw [if_pos hw, bind_ok (storeWord_ok hx _)] at hrun
    obtain ⟨hout, rfl⟩ := Prod.mk.inj (Except.ok.inj hrun)
    obtain ⟨rfl, _⟩ := Prod.mk.inj hout
    rw [← hw] at hd
    obtain ⟨_, ⟨hr, _, _, _, hdead, _⟩ | ⟨hr, _, _, hm⟩⟩ := decr_cas hd
    · -- the reserve of the record pays for its teardown
      obtain ⟨g, hg, hswap, hbase⟩ : ∃ g, verdict r = [g] ∧ g.isSwap = false ∧
          g.base budget s₀ = reserve budget s₀ r := by
        cases r with
        | block b => exact ⟨_, rfl, rfl, rfl⟩
        | byref p => exact ⟨_, rfl, rfl, rfl⟩
        | object o => cases hx
      have hreserve := liveReserve_setWord_dying budget s₀ hrep hx hl
        (w := a.new) ⟨hl.1, hdead⟩
      rw [hr, afterDecr, if_pos rfl, hg]
      refine .stored (fun g' hg' => ?_) ?_
      · rw [List.mem_singleton.1 hg']
        exact hswap
      · rw [stackBase_cons, stackBase_nil, hbase, ← hreserve, Frame.base]
        omega
    · rw [hr]
      refine .stored (fun g hg => by cases hg) ?_
      rw [liveReserve_setWord_live (w := a.new) hrep hx hl ⟨hl.1, hm.dealloc.trans hl.2⟩]
      simp [afterDecr, Frame.base]
  · rw [if_neg hw] at hrun
    obtain ⟨hout, rfl⟩ := Prod.mk.inj (Except.ok.inj hrun)
    obtain ⟨rfl, _⟩ := Prod.mk.inj hout
    refine .still (.refl _) (fun g hg => by cases hg) ?_
    simp [stackPenalty, Frame.base, Frame.penalty, hx, hw]

theorem incrSwap_progress {a : Swap Flags Flags} (hs : Sane s₀ s)
    (hok : (Frame.incrSwap r a).Ok s₀ s) (ht : Target s₀ s r)
    (hrun : (Frame.incrSwap r a).step s = .ok ((gs, gained), t)) :
    (Frame.incrSwap r a).Progress budget s₀ s gs t := by
  obtain ⟨hext, hd⟩ := hok.static
  obtain ⟨x, hx, hl, _⟩ := ht.live hs hext
  rw [Frame.step, bind_ok (loadWord_ok hx)] at hrun
  by_cases hw : x.word = a.old
  · rw [if_pos hw, bind_ok (storeWord_ok hx _)] at hrun
    obtain ⟨hout, rfl⟩ := Prod.mk.inj (Except.ok.inj hrun)
    obtain ⟨rfl, _⟩ := Prod.mk.inj hout
    rw [← hw] at hd
    obtain ⟨_, _, hm⟩ := incr_cas hd
    refine .stored (fun g hg => by cases hg) ?_
    rw [liveReserve_setWord_live (w := a.new) (hs.fades.rep hs.rep) hx hl
      ⟨hl.1, hm.dealloc.trans hl.2⟩]
    simp [Frame.base]
  · rw [if_neg hw] at hrun
    obtain ⟨hout, rfl⟩ := Prod.mk.inj (Except.ok.inj hrun)
    obtain ⟨rfl, _⟩ := Prod.mk.inj hout
    refine .still (.refl _) (fun g hg => by cases hg) ?_
    simp [stackPenalty, Frame.base, Frame.penalty, hx, hw]

/-- Every step of an activation lowers the cost. -/
theorem Frame.progress (hs : Sane s₀ s) (hok : f.Ok s₀ s)
    (hrefs : ∀ r ∈ f.refs s₀, Target s₀ s r) (hb : ∀ r ∈ f.borrowed s₀, Target s₀ s r)
    (hrun : f.step s = .ok ((gs, gained), t)) : f.Progress budget s₀ s gs t := by
  by_cases hplain : f.plainStep = true
  · exact (Frame.leads hplain).progress hrun
  cases f with
  | callDisposeHelper a => exact callDisposeHelper_progress hs hok hrun
  | freeBlock a =>
    obtain ⟨c, hc, hd⟩ := (hok.condemned (.block a) (Multiset.mem_singleton_self _)).block
    refine free_progress (e := .freeBlock a) (blockRecord_of hc) hd hrun ?_ rfl
    rw [Frame.step, bind_ok (freeBlock_ok hc)]
    rfl
  | freeByref p =>
    obtain ⟨c, hc, hd⟩ := (hok.condemned (.byref p) (Multiset.mem_singleton_self _)).byref
    refine free_progress (e := .freeByref p) (byrefRecord_of hc) hd hrun ?_ rfl
    rw [Frame.step, bind_ok (freeByref_ok hc)]
    rfl
  | decrRead r => exact decrRead_progress hs hok (hrefs r (Multiset.mem_singleton_self r)) hrun
  | decrSwap r a => exact decrSwap_progress hs hok (hrefs r (Multiset.mem_singleton_self r)) hrun
  | incrRead r => exact incrRead_progress hs hok (hb r (Multiset.mem_singleton_self r)) hrun
  | incrSwap r a => exact incrSwap_progress hs hok (hb r (Multiset.mem_singleton_self r)) hrun
  | _ => exact absurd rfl hplain

end

/-! ## The potential of the machine -/

variable {ι : Type} [DecidableEq ι] [Fintype ι]

/-- What the other threads may lose by one store. -/
def Machine.budget (ι : Type) [Fintype ι] : Nat := 2 * Fintype.card ι

/-- A bound on the steps that the calls in progress will take. -/
def Machine.potential (s₀ : Mem) (m : Machine ι) : Nat :=
  liveReserve (Machine.budget ι) s₀ m.mem +
    ∑ i, (stackBase (Machine.budget ι) s₀ (m.workers i).stack +
      stackPenalty m.mem (m.workers i).stack)

/-- Only the top activation of a thread is between a read and its swap. -/
def Machine.Tops (m : Machine ι) : Prop := ∀ i, Settled (m.workers i).stack.tail

section

variable {s₀ : Mem} {m m' : Machine ι} {i : ι} {t : Mem} {f : Frame} {fs gs : List Frame}
  {gained : Multiset Ref}

/-- A lost swap is the worst that a store does to a thread. -/
theorem stackPenalty_le (h : Settled fs.tail) (s : Mem) : stackPenalty s fs ≤ 2 := by
  cases fs with
  | nil => exact Nat.zero_le 2
  | cons f fs =>
    rw [stackPenalty_cons, stackPenalty_settled (show Settled fs from h), add_zero]
    exact f.penalty_le s

/-- The step of a thread lowers the cost of its activations. -/
theorem Inv.progress (h : Inv s₀ m) (hstack : (m.workers i).stack = f :: fs)
    (hrun : f.step m.mem = .ok ((gs, gained), t)) :
    f.Progress (Machine.budget ι) s₀ m.mem gs t := by
  have hf : f ∈ (m.workers i).stack := hstack ▸ List.mem_cons_self
  refine Frame.progress h.sane (h.frames i f hf) (fun r hr => h.target ?_)
    (fun r hr => h.target_held (h.borrowed i f hf r hr)) hrun
  rw [Machine.refs_split hstack]
  exact Multiset.mem_add.2 (Or.inl hr)

/-- A step of a thread lowers the potential. -/
theorem potential_lt (h : Inv s₀ m) (htops : m.Tops) (hstack : (m.workers i).stack = f :: fs)
    (hrun : f.step m.mem = .ok ((gs, gained), t)) :
    (m.put i t ⟨gs ++ fs, (m.workers i).held + gained⟩).potential s₀ < m.potential s₀ := by
  have hsettled : Settled fs := by
    have htop := htops i
    rwa [hstack] at htop
  have hprogress := h.progress hstack hrun
  unfold Machine.potential
  rw [Machine.put_mem,
    sum_put (fun x => stackBase (Machine.budget ι) s₀ x.stack + stackPenalty t x.stack),
    sum_workers (fun x => stackBase (Machine.budget ι) s₀ x.stack + stackPenalty m.mem x.stack) m i,
    hstack]
  simp only [stackBase_append, stackBase_cons, stackPenalty_append, stackPenalty_cons,
    stackPenalty_settled hsettled, add_zero]
  cases hprogress with
  | still hc _ hlt =>
    rw [stackPenalty_congr hc] at hlt
    simp only [stackPenalty_congr hc, liveReserve_congr hc.sharedGraph]
    omega
  | stored hs hlt =>
    have hothers : ∑ j ∈ Finset.univ.erase i, (stackBase (Machine.budget ι) s₀ (m.workers j).stack +
        stackPenalty t (m.workers j).stack) ≤ ∑ j ∈ Finset.univ.erase i,
          (stackBase (Machine.budget ι) s₀ (m.workers j).stack +
            stackPenalty m.mem (m.workers j).stack) + Machine.budget ι := by
      have hcard : (Finset.univ.erase i).card * 2 ≤ Machine.budget ι := by
        have hle := Finset.card_erase_le (s := Finset.univ) (a := i)
        rw [Finset.card_univ] at hle
        unfold Machine.budget
        omega
      rw [← Finset.sum_const_nat (f := fun _ : ι => 2) fun _ _ => rfl] at hcard
      refine le_trans ?_ (Nat.add_le_add_left hcard _)
      rw [← Finset.sum_add_distrib]
      refine Finset.sum_le_sum fun j _ => ?_
      have hle := stackPenalty_le (htops j) t
      omega
    rw [stackPenalty_settled hs]
    omega

/-! ## Runs -/

omit [Fintype ι] in
theorem Machine.Tops.advance (htops : m.Tops) (hstack : (m.workers i).stack = f :: fs)
    (hgs : Settled gs.tail) : (m.put i t ⟨gs ++ fs, gained⟩).Tops := by
  intro j
  by_cases hj : j = i
  · subst hj
    have htop := htops j
    rw [hstack] at htop
    rw [Machine.put_self]
    cases gs with
    | nil => exact fun g hg => htop g (List.mem_of_mem_tail hg)
    | cons g gs =>
      intro g' hg'
      rcases List.mem_append.1 hg' with hg' | hg'
      · exact hgs g' hg'
      · exact htop g' hg'
  · rw [Machine.put_ne _ _ _ hj]
    exact htops j

omit [Fintype ι] in
/-- A thread whose stack stays or becomes a call keeps `Tops`. -/
theorem Machine.Tops.put {x : Worker} (htops : m.Tops) (hx : Settled x.stack.tail) :
    (m.put i t x).Tops := by
  intro j
  by_cases hj : j = i
  · subst hj
    rw [Machine.put_self]
    exact hx
  · rw [Machine.put_ne _ _ _ hj]
    exact htops j

theorem potential_put (s₀ : Mem) (x : Worker) :
    (m.put i m.mem x).potential s₀ + (stackBase (Machine.budget ι) s₀ (m.workers i).stack +
        stackPenalty m.mem (m.workers i).stack) =
      m.potential s₀ + (stackBase (Machine.budget ι) s₀ x.stack + stackPenalty m.mem x.stack) := by
  have hsum := sum_put_add
    (fun x => stackBase (Machine.budget ι) s₀ x.stack + stackPenalty m.mem x.stack) m i m.mem x
  unfold Machine.potential
  rw [Machine.put_mem]
  beta_reduce at hsum
  omega

omit [DecidableEq ι] in
/-- What a call costs at most. -/
theorem Frame.entry_cost (hf : f.entry = true) (s : Mem) :
    f.base (Machine.budget ι) s₀ ≤ Machine.budget ι + 7 ∧ f.penalty s = 0 := by
  cases f with
  | objectDispose object flags => exact ⟨by simp [Frame.base], rfl⟩
  | release arg => exact ⟨by simp [Frame.base], rfl⟩
  | copy arg => exact ⟨by simp [Frame.base], rfl⟩
  | objectAssign object flags => exact ⟨by simp [Frame.base], rfl⟩
  | _ => cases hf

/-- A step of the machine, with what it costs or brings. -/
theorem potential_step {a : Act ι} (h : Inv s₀ m) (htops : m.Tops) (hstep : m.Step a m') :
    m'.Tops ∧ advances [a] + m'.potential s₀ ≤
      m.potential s₀ + (Machine.budget ι + 7) * (callsOf [a]).length := by
  cases hstep with
  | call i f rest hidle hf hheld hborrow =>
    refine ⟨htops.put (x := ⟨[f], rest⟩) fun g hg => (by cases hg), ?_⟩
    have hput := potential_put s₀ (m := m) (i := i) ⟨[f], rest⟩
    obtain ⟨hbase, hpenalty⟩ : f.base (Machine.budget ι) s₀ ≤ Machine.budget ι + 7 ∧
        f.penalty m.mem = 0 := Frame.entry_cost hf m.mem
    rw [hidle] at hput
    simp only [stackBase_cons, stackBase_nil, stackPenalty_cons, stackPenalty_nil, hpenalty] at hput
    simp only [advances, callsOf, List.countP_singleton, List.filterMap_cons, List.filterMap_nil,
      List.length_singleton, Bool.false_eq_true, if_false]
    omega
  | advance i f fs gs gained t hstack hrun =>
    have hlt := potential_lt h htops hstack hrun
    refine ⟨htops.advance hstack ?_, ?_⟩
    · cases h.progress hstack hrun with
      | still _ hs _ => exact hs
      | stored hs _ => exact fun g hg => hs g (List.mem_of_mem_tail hg)
    · simp only [advances, callsOf, List.countP_singleton, List.filterMap_cons, List.filterMap_nil,
        List.length_nil, if_true]
      omega
  | give i j w rest hij hidle hheld =>
    have hfirst : (m.put i m.mem ⟨[], rest⟩).Tops := htops.put fun g hg => (by cases hg)
    have hj := m.put_ne m.mem ⟨[], rest⟩ hij.symm
    refine ⟨hfirst.put (hj ▸ hfirst j), ?_⟩
    have h₁ := potential_put s₀ (m := m) (i := i) ⟨[], rest⟩
    have h₂ := potential_put s₀ (m := m.put i m.mem ⟨[], rest⟩) (i := j)
      ⟨(m.workers j).stack, (m.workers j).held + w⟩
    rw [hj, Machine.put_mem] at h₂
    rw [hidle] at h₁
    dsimp only at h₁ h₂
    simp only [advances, callsOf, List.countP_singleton, List.filterMap_cons, List.filterMap_nil,
      List.length_nil, Bool.false_eq_true, if_false]
    omega

/-- The cost of a run. -/
theorem potential_run {acts : List (Act ι)} (h : Inv s₀ m) (htops : m.Tops)
    (hrun : m.Run acts m') : m'.Tops ∧ advances acts + m'.potential s₀ ≤
      m.potential s₀ + (Machine.budget ι + 7) * (callsOf acts).length := by
  induction hrun with
  | start => exact ⟨htops, by simp [advances, callsOf]⟩
  | step acts m₁ a m₂ hrun hstep ih =>
    obtain ⟨htops₁, hle⟩ := ih
    obtain ⟨htops₂, hle'⟩ := potential_step (h.run hrun) htops₁ hstep
    refine ⟨htops₂, ?_⟩
    have hadv : advances (acts ++ [a]) = advances acts + advances [a] := List.countP_append
    have hcalls : callsOf (acts ++ [a]) = callsOf acts ++ callsOf [a] := List.filterMap_append
    rw [hadv, hcalls, List.length_append, Nat.mul_add]
    omega

end

/-! ## The two results -/

section

variable {s₀ : Mem} {m₀ m : Machine ι} {acts : List (Act ι)}

omit [DecidableEq ι] in
theorem Start.tops (h : Start s₀ m) : m.Tops := fun i g hg => by
  rw [h.idle i] at hg
  cases hg

omit [DecidableEq ι] in
theorem Start.potential (h : Start s₀ m) :
    m.potential s₀ = liveReserve (Machine.budget ι) s₀ s₀ := by
  simp [Machine.potential, h.idle, h.mem]

/-- However the threads are scheduled and whatever swaps they lose, a run has
no more steps than its calls and the records to tear down pay for. -/
theorem threads_bounded (h : Start s₀ m₀) (hrun : m₀.Run acts m) :
    advances acts ≤ liveReserve (Machine.budget ι) s₀ s₀ +
      (Machine.budget ι + 7) * (callsOf acts).length := by
  have hle := (potential_run h.inv h.tops hrun).2
  rw [h.potential] at hle
  omega

theorem threads_bounded_raced :
    ∃ acts, sharing.Run acts raced ∧ 0 < advances acts ∧
      advances acts ≤ liveReserve (Machine.budget Bool) copiedClient.mem copiedClient.mem +
        (Machine.budget Bool + 7) * 2 := by
  obtain ⟨acts, hrun, hcalls⟩ := raced_run
  have hle := threads_bounded sharing_start hrun
  rw [hcalls] at hle
  refine ⟨acts, hrun, Nat.pos_of_ne_zero fun hnone => ?_, hle⟩
  have hmem : raced.mem.blocks 4 = copiedClient.mem.blocks 4 :=
    congrArg (fun s => s.blocks 4) (hrun.mem_eq hnone)
  rw [show raced.mem.blocks 4 = none from rfl] at hmem
  cases hmem

theorem exists_idle (n : Nat) : ∀ m : Machine ι, m.potential s₀ ≤ n → Inv s₀ m → m.Tops →
    ∃ acts m', m.Run acts m' ∧ (∀ a ∈ acts, ∃ i, a = .advance i) ∧
      ∀ i, (m'.workers i).stack = [] := by
  induction n with
  | zero =>
    intro m hle h htops
    refine ⟨[], m, .start, fun a ha => (by cases ha), fun i => ?_⟩
    cases hstack : (m.workers i).stack with
    | nil => rfl
    | cons f fs =>
      obtain ⟨gs, gained, t, _, hrun, _⟩ := h.goes hstack
      have hlt := potential_lt h htops hstack hrun
      omega
  | succ n ih =>
    intro m hle h htops
    by_cases hidle : ∀ i, (m.workers i).stack = []
    · exact ⟨[], m, .start, fun a ha => (by cases ha), hidle⟩
    · obtain ⟨i, hi⟩ := not_forall.1 hidle
      obtain ⟨f, fs, hstack⟩ := List.exists_cons_of_ne_nil hi
      obtain ⟨gs, gained, t, _, hrun, _⟩ := h.goes hstack
      have hstep := Machine.Step.advance i f fs gs gained t hstack hrun
      have hlt := potential_lt h htops hstack hrun
      obtain ⟨acts, m', hacts, hall, hdone⟩ := ih _ (by omega) (h.step hstep)
        (potential_step h htops hstep).1
      refine ⟨.advance i :: acts, m', (Machine.Run.step [] m _ _ .start hstep).append hacts, ?_,
        hdone⟩
      intro a ha
      rcases List.mem_cons.1 ha with rfl | ha
      · exact ⟨i, rfl⟩
      · exact hall a ha

/-- The calls in progress return if no new ones come: no schedule can go on
for longer than the potential, and some schedule ends with all threads idle. -/
theorem threads_finish (h : Start s₀ m₀) (hrun : m₀.Run acts m) :
    (∀ acts' m', m.Run acts' m' → callsOf acts' = [] → advances acts' ≤ m.potential s₀) ∧
      ∃ acts' m', m.Run acts' m' ∧ (∀ a ∈ acts', ∃ i, a = .advance i) ∧
        ∀ i, (m'.workers i).stack = [] := by
  have hinv := h.inv.run hrun
  have htops := (potential_run h.inv h.tops hrun).1
  refine ⟨fun acts' m' hrun' hcalls => ?_, exists_idle _ m le_rfl hinv htops⟩
  have hle := (potential_run hinv htops hrun').2
  rw [hcalls, List.length_nil] at hle
  omega

theorem threads_finish_racing :
    (∀ acts' m', racing.Run acts' m' → callsOf acts' = [] →
      advances acts' ≤ racing.potential copiedClient.mem) ∧
      ∃ acts' m', racing.Run acts' m' ∧ (∀ a ∈ acts', ∃ i, a = .advance i) ∧
        ∀ i, (m'.workers i).stack = [] :=
  threads_finish sharing_start racing_run

end

end BlocksRuntime.Threads
