import BlocksRuntime.Flags
import BlocksRuntime.RetryLoop.Linearize
import Mathlib.Data.List.Induction

/-!
# The reference count under interference

The three loops on a flags word, called by any number of threads.

* `Counter` is the abstract counter: a count that saturates at `latched`, and
  a mark that is set once.
* `loop_refines` says that a loop does to the word what the abstract call does
  to the counter.
* `Explained` says that a list of completed calls is a sequential run of the
  counter.  The facts about interleavings are facts about such runs.
* `SaturatingRun` collects what holds of every interleaving.
-/

namespace BlocksRuntime

open RetryLoop

/-! ## The calls -/

/-- The functions that change a count. -/
inductive FlagsCall where
  | incr
  | incrNotDeallocating
  | decrShouldDeallocate
  deriving DecidableEq, Repr

/-- What a call returns: an `int32_t` or a `bool`. -/
inductive FlagsResult where
  | value (w : Flags)
  | flag (b : Bool)
  deriving DecidableEq, Repr

/-- The loop behind a call. -/
def FlagsCall.loop : FlagsCall → Flags → Attempt Flags FlagsResult
  | .incr, w => (latchingIncrInt w).map .value
  | .incrNotDeallocating, w => (latchingIncrIntNotDeallocating w).map .flag
  | .decrShouldDeallocate, w => (latchingDecrIntShouldDeallocate w).map .flag

/-! ## The abstract counter -/

/-- A saturating count and the mark of deallocation. -/
structure Counter where
  count : Nat
  deallocating : Bool
  deriving DecidableEq, Repr

/-- The word that shows the counter, with the high half `h`. -/
def Counter.toFlags (h : Nat) (c : Counter) : Flags :=
  BitVec.ofNat 32 (h * 2 ^ 16 + 2 * c.count + c.deallocating.toNat)

/-- A call on the counter.  `h` is the high half of the word, which an
increment returns as well. -/
def Counter.apply (h : Nat) (call : FlagsCall) (c : Counter) : FlagsResult × Counter :=
  match call with
  | .incr =>
    if c.count = latched then (.value BLOCK_REFCOUNT_MASK, c)
    else
      let d := { c with count := c.count + 1 }
      (.value (d.toFlags h), d)
  | .incrNotDeallocating =>
    if c.deallocating then (.flag false, c)
    else (.flag true, { c with count := min latched (c.count + 1) })
  | .decrShouldDeallocate =>
    if c.count = latched ∨ c.count = 0 then (.flag false, c)
    else if c.count = 1 ∧ c.deallocating = false then (.flag true, ⟨0, true⟩)
    else (.flag false, { c with count := c.count - 1 })

/-- The counter that a word shows. -/
def counterOf (w : Flags) : Counter := ⟨refcount w, isDeallocating w⟩

theorem toFlags_counterOf (w : Flags) : (counterOf w).toFlags (high w) = w := by
  apply BitVec.eq_of_toNat_eq
  have hlt := w.isLt
  have hbit : (isDeallocating w).toNat = w.toNat % 2 := by
    unfold isDeallocating
    rcases Nat.mod_two_eq_zero_or_one w.toNat with h | h <;> simp [h]
  show (BitVec.ofNat 32 (high w * 2 ^ 16 + 2 * refcount w + (isDeallocating w).toNat)).toNat = _
  rw [hbit, BitVec.toNat_ofNat]
  unfold high refcount
  omega

/-- The word `w` shows the counter `c`, with the high half `h`. -/
def Shows (h : Nat) (w : Flags) (c : Counter) : Prop := high w = h ∧ counterOf w = c

theorem counterOf_eq {w : Flags} {n : Nat} {d : Bool} (hc : refcount w = n)
    (hd : isDeallocating w = d) : counterOf w = ⟨n, d⟩ := by
  rw [counterOf, hc, hd]

/-- A loop does to the word what the call does to the counter. -/
theorem loop_refines (h : Nat) (call : FlagsCall) (w : Flags) (c : Counter) (hw : Shows h w c) :
    ((call.loop w).run w).1 = (c.apply h call).1 ∧
      Shows h ((call.loop w).run w).2 (c.apply h call).2 := by
  obtain ⟨rfl, rfl⟩ := hw
  have hsame : Shows (high w) w (counterOf w) := ⟨rfl, rfl⟩
  cases call with
  | incr =>
    rw [FlagsCall.loop, Attempt.run_map, Counter.apply]
    by_cases hl : refcount w = latched
    · rw [incr_run_latched hl, if_pos (show (counterOf w).count = latched from hl)]
      exact ⟨rfl, hsame⟩
    · obtain ⟨hc, hm⟩ := add_two_views hl
      have hshows : counterOf (w + 2) = { counterOf w with count := refcount w + 1 } :=
        counterOf_eq hc hm.dealloc
      rw [incr_run hl, if_neg (show (counterOf w).count ≠ latched from hl)]
      show FlagsResult.value (w + 2) =
        .value (({ counterOf w with count := refcount w + 1 } : Counter).toFlags (high w)) ∧ _
      rw [← hshows, ← hm.high, toFlags_counterOf]
      exact ⟨rfl, rfl, hshows⟩
  | incrNotDeallocating =>
    rw [FlagsCall.loop, Attempt.run_map, Counter.apply]
    cases hd : isDeallocating w with
    | true =>
      rw [tryIncr_run_deallocating hd, if_pos (show (counterOf w).deallocating = true from hd)]
      exact ⟨rfl, hsame⟩
    | false =>
      obtain ⟨v, hrun, hc, hm⟩ := tryIncr_run hd
      have hne : ¬(counterOf w).deallocating = true := by
        rw [show (counterOf w).deallocating = false from hd]
        decide
      rw [hrun, if_neg hne]
      exact ⟨rfl, hm.high, counterOf_eq hc hm.dealloc⟩
  | decrShouldDeallocate =>
    rw [FlagsCall.loop, Attempt.run_map, Counter.apply]
    by_cases hl : refcount w = latched
    · rw [decr_run_latched hl, if_pos (show (counterOf w).count = latched ∨ _ from Or.inl hl)]
      exact ⟨rfl, hsame⟩
    by_cases h0 : refcount w = 0
    · rw [decr_run_zero h0, if_pos (show _ ∨ (counterOf w).count = 0 from Or.inr h0)]
      exact ⟨rfl, hsame⟩
    rw [if_neg (show ¬((counterOf w).count = latched ∨ (counterOf w).count = 0) from
      not_or.2 ⟨hl, h0⟩)]
    by_cases h1 : refcount w = 1 ∧ isDeallocating w = false
    · obtain ⟨hc, hd, hh⟩ := sub_one_views h1.1 h1.2
      rw [decr_run_last h1.1 h1.2, if_pos (show (counterOf w).count = 1 ∧
        (counterOf w).deallocating = false from h1)]
      exact ⟨rfl, hh, counterOf_eq hc hd⟩
    · obtain ⟨hc, hm⟩ := sub_two_views h0
      rw [decr_run_other hl h0 h1, if_neg (show ¬((counterOf w).count = 1 ∧
        (counterOf w).deallocating = false) from h1)]
      exact ⟨rfl, hm.high, counterOf_eq hc hm.dealloc⟩

/-! ## Completed calls -/

/-- A completed call on a flags word. -/
abbrev FlagsCompleted (ι : Type) := Completed ι FlagsCall FlagsResult

/-- A decrement that returned `true`. -/
def IsVerdict {ι : Type} (x : FlagsCompleted ι) : Prop :=
  x.call = .decrShouldDeallocate ∧ x.result = .flag true

instance {ι : Type} (x : FlagsCompleted ι) : Decidable (IsVerdict x) := by
  unfold IsVerdict
  infer_instance

/-- The references that the completed calls took. -/
def taken {ι : Type} (log : List (FlagsCompleted ι)) : Nat :=
  log.countP fun x => x.call ≠ .decrShouldDeallocate ∧ x.result ≠ .flag false

/-- The references that the completed calls gave up. -/
def given {ι : Type} (log : List (FlagsCompleted ι)) : Nat :=
  log.countP fun x => x.call = .decrShouldDeallocate

/-- The completed calls are a run of the counter from `c` to `d`, one after
another. -/
def Explained {ι : Type} (h : Nat) (c : Counter) (log : List (FlagsCompleted ι)) (d : Counter) :
    Prop :=
  sequential (fun call c => Counter.apply h call c) c (log.map Completed.call) =
    (log.map Completed.result, d)

section

variable {ι : Type} {h : Nat} {c d : Counter} {x : FlagsCompleted ι}
  {log log' : List (FlagsCompleted ι)}

theorem explained_nil : Explained h c ([] : List (FlagsCompleted ι)) d ↔ c = d := by
  simp [Explained, sequential]

theorem explained_cons : Explained h c (x :: log) d ↔
    x.result = (c.apply h x.call).1 ∧ Explained h (c.apply h x.call).2 log d := by
  simp only [Explained, List.map_cons, sequential, Prod.mk.injEq, List.cons.injEq,
    Prod.ext_iff (x := sequential _ _ _)]
  constructor
  · rintro ⟨⟨hr, hrs⟩, hd⟩
    exact ⟨hr.symm, hrs, hd⟩
  · rintro ⟨hr, hrs, hd⟩
    exact ⟨⟨hr.symm, hrs⟩, hd⟩

theorem explained_append : Explained h c (log ++ log') d ↔
    ∃ e, Explained h c log e ∧ Explained h e log' d := by
  induction log generalizing c with
  | nil => simp [explained_nil]
  | cons x log ih => simp only [List.cons_append, explained_cons, ih, and_assoc, exists_and_left]

/-- The counter after one more call. -/
theorem explained_concat : Explained h c (log ++ [x]) d ↔
    ∃ e, Explained h c log e ∧ x.result = (e.apply h x.call).1 ∧ d = (e.apply h x.call).2 := by
  simp only [explained_append, explained_cons, explained_nil, eq_comm]

/-! ## Runs of the counter -/

/-- Nothing clears the mark, and it makes both kinds of tests fail. -/
theorem Counter.apply_deallocating (hc : c.deallocating = true) (call : FlagsCall) :
    (c.apply h call).2.deallocating = true ∧
      (call ≠ .incr → (c.apply h call).1 = .flag false) := by
  cases call with
  | incr =>
    unfold Counter.apply
    simp only
    split <;> exact ⟨hc, fun he => absurd rfl he⟩
  | incrNotDeallocating =>
    unfold Counter.apply
    rw [if_pos hc]
    exact ⟨hc, fun _ => rfl⟩
  | decrShouldDeallocate =>
    unfold Counter.apply
    simp only [hc]
    split
    · exact ⟨hc, fun _ => rfl⟩
    · simp

theorem Explained.deallocating (hl : Explained h c log d) (hc : c.deallocating = true) :
    d.deallocating = true ∧ ∀ x ∈ log, x.call ≠ .incr → x.result = .flag false := by
  induction log generalizing c with
  | nil =>
    rw [explained_nil] at hl
    exact ⟨hl ▸ hc, fun x hx => absurd hx List.not_mem_nil⟩
  | cons x log ih =>
    obtain ⟨hr, hrest⟩ := explained_cons.1 hl
    obtain ⟨hc', hfalse⟩ := Counter.apply_deallocating (h := h) hc x.call
    obtain ⟨hd, hall⟩ := ih hrest hc'
    refine ⟨hd, fun y hy hne => ?_⟩
    rcases List.mem_cons.1 hy with rfl | hy
    · exact hr.trans (hfalse hne)
    · exact hall y hy hne

/-- A latched count stays. -/
theorem Counter.apply_latched (hc : c.count = latched) (call : FlagsCall) :
    (c.apply h call).2 = c ∧ (call = .decrShouldDeallocate → (c.apply h call).1 = .flag false) := by
  cases call with
  | incr =>
    unfold Counter.apply
    simp only [if_pos hc]
    exact ⟨trivial, fun he => by cases he⟩
  | incrNotDeallocating =>
    have hmin : ({ c with count := min latched (c.count + 1) } : Counter) = c := by
      rw [hc, Nat.min_eq_left (Nat.le_succ _), ← hc]
    unfold Counter.apply
    simp only [hmin]
    split <;> exact ⟨rfl, fun he => by cases he⟩
  | decrShouldDeallocate =>
    unfold Counter.apply
    rw [if_pos (Or.inl hc)]
    exact ⟨rfl, fun _ => rfl⟩

theorem Explained.latch_stays (hl : Explained h c log d) (hc : c.count = latched) :
    d = c ∧ ∀ x ∈ log, x.call = .decrShouldDeallocate → x.result = .flag false := by
  induction log with
  | nil =>
    rw [explained_nil] at hl
    exact ⟨hl.symm, fun x hx => absurd hx List.not_mem_nil⟩
  | cons x log ih =>
    obtain ⟨hr, hrest⟩ := explained_cons.1 hl
    obtain ⟨hsame, hfalse⟩ := Counter.apply_latched (h := h) hc x.call
    rw [hsame] at hrest
    obtain ⟨hd, hall⟩ := ih hrest
    refine ⟨hd, fun y hy hcall => ?_⟩
    rcases List.mem_cons.1 hy with rfl | hy
    · exact hr.trans (hfalse hcall)
    · exact hall y hy hcall

/-- The decrement that returns `true` sets the mark. -/
theorem Counter.apply_verdict
    (hr : (c.apply h .decrShouldDeallocate).1 = .flag true) :
    c.count = 1 ∧ (c.apply h .decrShouldDeallocate).2 = ⟨0, true⟩ := by
  unfold Counter.apply at hr ⊢
  simp only at hr ⊢
  split at hr
  · cases hr
  · next hne =>
    rw [if_neg hne]
    split at hr
    · next h1 => exact ⟨h1.1, by rw [if_pos h1]⟩
    · cases hr

/-- After a verdict both kinds of tests fail. -/
theorem Explained.after_verdict (hl : Explained h c (x :: log) d) (hx : IsVerdict x) :
    d.deallocating = true ∧ ∀ y ∈ log, y.call ≠ .incr → y.result = .flag false := by
  obtain ⟨hr, hrest⟩ := explained_cons.1 hl
  rw [hx.2, hx.1] at hr
  rw [hx.1] at hrest
  exact hrest.deallocating (by rw [(Counter.apply_verdict hr.symm).2])

/-- There is one verdict at most. -/
theorem Explained.verdict_once (hl : Explained h c log d) :
    log.countP (fun x => IsVerdict x) ≤ 1 := by
  induction log generalizing c with
  | nil => exact Nat.zero_le 1
  | cons x log ih =>
    by_cases hx : IsVerdict x
    · have hnone : log.countP (fun y => IsVerdict y) = 0 := by
        rw [List.countP_eq_zero]
        intro y hy hv
        rw [decide_eq_true_eq] at hv
        have hfalse := (hl.after_verdict hx).2 y hy (by rw [hv.1]; decide)
        rw [hv.2] at hfalse
        cases hfalse
      rw [List.countP_cons, hnone]
      simp [hx]
    · rw [List.countP_cons]
      simpa [hx] using ih (explained_cons.1 hl).2

/-- A call that finds the counter neither latched nor empty moves the count by
the reference that it takes or gives up. -/
theorem Counter.apply_count (hl : c.count ≠ latched) (hle : c.count ≤ latched)
    (hr : x.result = (c.apply h x.call).1) (h0 : x.call = .decrShouldDeallocate → c.count ≠ 0) :
    (c.apply h x.call).2.count + given [x] = c.count + taken [x] := by
  cases hcall : x.call with
  | incr =>
    rw [hcall] at hr
    unfold Counter.apply at hr ⊢
    simp only [if_neg hl] at hr ⊢
    simp [given, taken, hcall, hr]
  | incrNotDeallocating =>
    rw [hcall] at hr
    unfold Counter.apply at hr ⊢
    simp only at hr ⊢
    cases hd : c.deallocating with
    | true =>
      rw [if_pos hd] at hr
      rw [if_pos rfl]
      simp [given, taken, hcall, hr]
    | false =>
      have hne : ¬c.deallocating = true := by
        rw [hd]
        decide
      rw [if_neg hne] at hr
      rw [if_neg (by decide)]
      simp [given, taken, hcall, hr]
      omega
  | decrShouldDeallocate =>
    have hpos := h0 hcall
    have hsome : given [x] = 1 := by simp [given, hcall]
    have hnone : taken [x] = 0 := by simp [taken, hcall]
    rw [hsome, hnone]
    unfold Counter.apply
    simp only [if_neg (not_or.2 ⟨hl, hpos⟩)]
    split
    · next h1 =>
      rw [h1.1]
    · show c.count - 1 + 1 = c.count + 0
      omega

theorem given_append : given (log ++ log') = given log + given log' := List.countP_append

theorem taken_append : taken (log ++ log') = taken log + taken log' := List.countP_append

theorem Counter.apply_count_le (hle : c.count ≤ latched) (call : FlagsCall) :
    (c.apply h call).2.count ≤ latched := by
  cases call with
  | incr =>
    unfold Counter.apply
    simp only
    split
    · exact hle
    · show c.count + 1 ≤ latched
      omega
  | incrNotDeallocating =>
    unfold Counter.apply
    simp only
    split
    · exact hle
    · exact Nat.min_le_left _ _
  | decrShouldDeallocate =>
    unfold Counter.apply
    simp only
    split
    · exact hle
    · split
      · exact Nat.zero_le _
      · show c.count - 1 ≤ latched
        omega

theorem Explained.count_le (hl : Explained h c log d) (hle : c.count ≤ latched) :
    d.count ≤ latched := by
  have hinv := sequential_invariant (f := fun call c => Counter.apply h call c)
    (P := fun c => c.count ≤ latched) (fun call c hc => Counter.apply_count_le hc call) hle
    (log.map Completed.call)
  rw [hl] at hinv
  exact hinv

/-- As long as there are references, the verdict is what sets the mark, and
what takes the count to zero. -/
theorem Counter.verdict_iff (hl : c.count ≠ latched) (h0 : c.count ≠ 0)
    (hlive : c.deallocating = false) (hr : x.result = (c.apply h x.call).1) :
    ((c.apply h x.call).2.deallocating = true ↔ IsVerdict x) ∧
      ((c.apply h x.call).2.count = 0 ↔ IsVerdict x) := by
  unfold IsVerdict
  cases hcall : x.call with
  | incr =>
    unfold Counter.apply
    simp [hl, hlive]
  | incrNotDeallocating =>
    unfold Counter.apply
    simp [hlive, latched]
  | decrShouldDeallocate =>
    rw [hcall] at hr
    unfold Counter.apply at hr ⊢
    simp only [if_neg (not_or.2 ⟨hl, h0⟩)] at hr ⊢
    by_cases h1 : c.count = 1 ∧ c.deallocating = false
    · rw [if_pos h1] at hr ⊢
      simp [hr]
    · rw [if_neg h1] at hr ⊢
      have hone : c.count ≠ 1 := fun he => h1 ⟨he, hlive⟩
      have hne : c.count - 1 ≠ 0 := by omega
      simp [hr, hlive, hne]

/-- The conditions of a balanced run: at no point is the count latched, and at
no point have more references been given up than there were. -/
def DecrementsBacked (h : Nat) (c : Counter) (log : List (FlagsCompleted ι)) : Prop :=
  ∀ p e, p <+: log → Explained h c p e → e.count ≠ latched ∧ given p ≤ c.count + taken p

/-- In a balanced run no reference is lost, and the verdict comes when all are
given up. -/
theorem Explained.accounting (hl : Explained h c log d) (hle : c.count ≤ latched)
    (hpos : 1 ≤ c.count) (hlive : c.deallocating = false) (hout : DecrementsBacked h c log) :
    d.count + given log = c.count + taken log ∧
      (d.deallocating = true ↔ ∃ p, p <+: log ∧ given p = c.count + taken p) ∧
      (d.deallocating = true ↔ ∃ x ∈ log, IsVerdict x) := by
  -- The induction is on the last call.
  induction log using List.reverseRecOn generalizing d with
  | nil =>
    rw [explained_nil] at hl
    subst hl
    refine ⟨rfl, ?_, ?_⟩
    · rw [hlive]
      refine iff_of_false (by decide) ?_
      rintro ⟨p, hp, he⟩
      rw [List.prefix_nil.1 hp] at he
      simp [given, taken] at he
      omega
    · simp [hlive]
  | append_singleton log x ih =>
    obtain ⟨e, he, hr, rfl⟩ := explained_concat.1 hl
    have hout' : DecrementsBacked h c log := fun p f hp =>
      hout p f (hp.trans (List.prefix_append log [x]))
    obtain ⟨hcount, hprefix, hverdict⟩ := ih he hout'
    have hlatch := (hout log e (List.prefix_append log [x]) he).1
    have hbalance := (hout (log ++ [x]) _ List.prefix_rfl hl).2
    rw [given_append, taken_append] at hbalance
    have h0 : x.call = .decrShouldDeallocate → e.count ≠ 0 := by
      intro hcall
      have hsome : given [x] = 1 := by simp [given, hcall]
      have hnone : taken [x] = 0 := by simp [taken, hcall]
      omega
    have hstep := Counter.apply_count hlatch (he.count_le hle) hr h0
    have hcount' : (e.apply h x.call).2.count + given (log ++ [x]) =
        c.count + taken (log ++ [x]) := by
      rw [given_append, taken_append]
      omega
    refine ⟨hcount', ?_⟩
    cases hmark : e.deallocating with
    | true =>
      -- The verdict was there before.
      have hstay := (Counter.apply_deallocating (h := h) hmark x.call).1
      obtain ⟨p, hp, hpe⟩ := hprefix.1 hmark
      obtain ⟨y, hy, hyv⟩ := hverdict.1 hmark
      refine ⟨iff_of_true hstay ⟨p, hp.trans (List.prefix_append log [x]), hpe⟩,
        iff_of_true hstay ⟨y, List.mem_append_left [x] hy, hyv⟩⟩
    | false =>
      have hnone : ∀ p, p <+: log → given p ≠ c.count + taken p := by
        intro p hp hpe
        have hset := hprefix.2 ⟨p, hp, hpe⟩
        rw [hmark] at hset
        cases hset
      have hnoverdict : ∀ y ∈ log, ¬IsVerdict y := by
        intro y hy hyv
        have hset := hverdict.2 ⟨y, hy, hyv⟩
        rw [hmark] at hset
        cases hset
      have hne := hnone log List.prefix_rfl
      have he0 : e.count ≠ 0 := by omega
      obtain ⟨hset, hzero⟩ := Counter.verdict_iff hlatch he0 hmark hr
      constructor
      · rw [hset, ← hzero]
        constructor
        · intro h0
          exact ⟨log ++ [x], List.prefix_rfl, by omega⟩
        · rintro ⟨p, hp, hpe⟩
          rcases List.prefix_concat_iff.1 hp with rfl | hp
          · omega
          · exact absurd hpe (hnone p hp)
      · rw [hset]
        constructor
        · exact fun hv => ⟨x, List.mem_append_right log List.mem_cons_self, hv⟩
        · rintro ⟨y, hy, hyv⟩
          rcases List.mem_append.1 hy with hy | hy
          · exact absurd hyv (hnoverdict y hy)
          · rw [List.mem_singleton] at hy
            exact hy ▸ hyv

end

/-! ## Every interleaving -/

section

variable {ι : Type} [DecidableEq ι] (w : Flags) (calls : ι → List FlagsCall) (schedule : List ι)

/-- The state after the first `k` atomic steps of the schedule. -/
def stateAt (k : Nat) : Shared ι FlagsCall Flags FlagsResult :=
  (Shared.start w calls).run FlagsCall.loop (schedule.take k)

/-- What holds of every interleaving of calls on the word `w`, where `s` is
the state after all steps of the schedule. -/
structure SaturatingRun (s : Shared ι FlagsCall Flags FlagsResult) : Prop where
  /-- The results and the word are those of the counter, one call after
  another in the order of the deciding steps. -/
  explained : Explained (high w) (counterOf w) s.done (counterOf s.word)
  /-- A thread gets the results of its own calls, in the order of its
  program. -/
  returned : ∀ i, (s.threads i).returned = (s.doneBy i).map Completed.result ∧
    (s.doneBy i).map Completed.call ++ (s.threads i).calls = calls i
  high_eq : high s.word = high w
  /-- The mark is not cleared. -/
  mark_stays : ∀ k, isDeallocating (stateAt w calls schedule k).word = true →
    isDeallocating s.word = true
  verdict_once : s.done.countP (fun x => IsVerdict x) ≤ 1
  /-- A call decided after the verdict does not retain a dead object. -/
  after_verdict : ∀ before x after, s.done = before ++ x :: after → IsVerdict x →
    isDeallocating s.word = true ∧
      ∀ y ∈ after, y.call = .incrNotDeallocating → y.result = .flag false
  /-- A latched word stays as it is, and nothing decided later deallocates. -/
  latch_stays : ∀ k, refcount (stateAt w calls schedule k).word = latched →
    s.word = (stateAt w calls schedule k).word ∧
      ∀ y ∈ s.done.drop (stateAt w calls schedule k).done.length,
        y.call = .decrShouldDeallocate → y.result = .flag false
  /-- If the count never latches and no more references are given up than
  there are, then the count is exact, and there is a verdict just if at some
  point all references have been given up. -/
  accounting : (∀ k, refcount (stateAt w calls schedule k).word ≠ latched) →
    (∀ p, p <+: s.done → given p ≤ refcount w + taken p) →
    refcount s.word + given s.done = refcount w + taken s.done ∧
      ((∃ x ∈ s.done, IsVerdict x) ↔ ∃ p, p <+: s.done ∧ given p = refcount w + taken p)

/-- The completed calls of a state are a run of the counter. -/
theorem explained_of_linear {v : Flags} {program : ι → List FlagsCall}
    {s : Shared ι FlagsCall Flags FlagsResult} (hs : Shared.Linear FlagsCall.loop v program s) :
    high s.word = high v ∧ Explained (high v) (counterOf v) s.done (counterOf s.word) := by
  obtain ⟨hr, hh, hc⟩ := sequential_refines
    (f := fun call u => (FlagsCall.loop call u).run u)
    (g := fun call c => Counter.apply (high v) call c) (R := Shows (high v))
    (fun call u c hu => loop_refines (high v) call u c hu)
    (show Shows (high v) v (counterOf v) from ⟨rfl, rfl⟩) (s.done.map Completed.call)
  rw [hs.replay] at hr hh hc
  exact ⟨hh, Prod.ext hr.symm hc.symm⟩

theorem high_stateAt (k : Nat) : high (stateAt w calls schedule k).word = high w :=
  (explained_of_linear (Shared.linear_run FlagsCall.loop w calls (schedule.take k))).1

theorem explained_stateAt (k : Nat) :
    Explained (high w) (counterOf w) (stateAt w calls schedule k).done
      (counterOf (stateAt w calls schedule k).word) :=
  (explained_of_linear (Shared.linear_run FlagsCall.loop w calls (schedule.take k))).2

/-- What happens from one point of the schedule to its end. -/
theorem explained_from (k : Nat) :
    ∃ rest, ((Shared.start w calls).run FlagsCall.loop schedule).done =
        (stateAt w calls schedule k).done ++ rest ∧
      Explained (high w) (counterOf (stateAt w calls schedule k).word) rest
        (counterOf ((Shared.start w calls).run FlagsCall.loop schedule).word) := by
  have hsplit : (Shared.start w calls).run FlagsCall.loop schedule =
      (stateAt w calls schedule k).run FlagsCall.loop (schedule.drop k) := by
    rw [stateAt, ← Shared.run_append, List.take_append_drop]
  obtain ⟨rest, hrest⟩ := Shared.done_run FlagsCall.loop (stateAt w calls schedule k)
    (schedule.drop k)
  rw [← hsplit] at hrest
  refine ⟨rest, hrest.symm, ?_⟩
  have hall := (explained_of_linear (Shared.linear_run FlagsCall.loop w calls schedule)).2
  rw [← hrest, explained_append] at hall
  obtain ⟨e, he, hlast⟩ := hall
  have hmid := explained_stateAt w calls schedule k
  have hsame : e = counterOf (stateAt w calls schedule k).word := by
    have hboth := he.symm.trans hmid
    exact congrArg Prod.snd hboth
  rw [← hsame]
  exact hlast

/-- The reference count is linearizable to a saturating counter.  The word
starts with a positive count and without the mark of deallocation. -/
theorem latching_linearizable (hpos : 1 ≤ refcount w) (hlive : isDeallocating w = false) :
    SaturatingRun w calls schedule ((Shared.start w calls).run FlagsCall.loop schedule) := by
  have hlinear := Shared.linear_run FlagsCall.loop w calls schedule
  obtain ⟨hhigh, hexplained⟩ := explained_of_linear hlinear
  refine ⟨hexplained, fun i => ⟨hlinear.returned i, hlinear.program i⟩, hhigh, ?_,
    hexplained.verdict_once, ?_, ?_, ?_⟩
  · intro k hk
    obtain ⟨rest, _, hrest⟩ := explained_from w calls schedule k
    exact (hrest.deallocating hk).1
  · intro before x after hsplit hx
    rw [hsplit, explained_append] at hexplained
    obtain ⟨e, _, hafter⟩ := hexplained
    obtain ⟨hmark, hfalse⟩ := hafter.after_verdict hx
    refine ⟨hmark, fun y hy hcall => hfalse y hy ?_⟩
    rw [hcall]
    decide
  · intro k hk
    obtain ⟨rest, hdone, hrest⟩ :=
      explained_from w calls schedule k
    obtain ⟨hsame, hfalse⟩ := hrest.latch_stays hk
    constructor
    · rw [← toFlags_counterOf ((Shared.start w calls).run FlagsCall.loop schedule).word, hsame,
        hhigh, ← high_stateAt w calls schedule k, toFlags_counterOf]
    · rw [hdone, List.drop_left]
      exact hfalse
  · intro hlatch hbalance
    have hout : DecrementsBacked (high w) (counterOf w)
        ((Shared.start w calls).run FlagsCall.loop schedule).done := by
      intro p e hp he
      refine ⟨?_, hbalance p hp⟩
      obtain ⟨k, hk⟩ := Shared.exists_take_done FlagsCall.loop (Shared.start w calls) schedule
        List.nil_prefix hp
      have hmid := explained_stateAt w calls schedule k
      rw [stateAt, hk] at hmid
      have hsame := congrArg Prod.snd (he.symm.trans hmid)
      rw [show e = _ from hsame]
      exact hlatch k
    obtain ⟨hcount, hmark, hverdict⟩ :=
      hexplained.accounting (refcount_le w) hpos hlive hout
    exact ⟨hcount, hverdict.symm.trans hmark⟩

end

/-- One thread gives up the only reference while another tries to retain. -/
def releaseAgainstRetain (i : Fin 2) : List FlagsCall :=
  if i.val = 0 then [.decrShouldDeallocate] else [.incrNotDeallocating]

/-- Both threads read the word, the retain swaps first, and the release starts
again. -/
theorem latching_linearizable_two_threads :
    let s := (Shared.start 0x01000002 releaseAgainstRetain).run FlagsCall.loop [0, 1, 1, 0, 0, 0]
    s.word = 0x01000002 ∧
      s.done.map Completed.result = [.flag true, .flag false] ∧
      SaturatingRun 0x01000002 releaseAgainstRetain [0, 1, 1, 0, 0, 0] s := by
  refine ⟨rfl, rfl, ?_⟩
  exact latching_linearizable 0x01000002 releaseAgainstRetain _ (by decide) (by decide)

end BlocksRuntime
