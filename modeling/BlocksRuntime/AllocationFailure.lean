import BlocksRuntime.MallocUse
import BlocksRuntime.Meaning

/-!
# When an allocation fails

`_Block_copy` returns `NULL` if the allocation of the block itself fails.  It
does not check the allocations further down: the copy of a nested block may
become `NULL`, and `_Block_byref_copy` writes through the `NULL` result.

* `Complete` says that nothing in a copy became `NULL`.
* `AllOrNothing` says that a call returns either nothing, and leaves the
  memory as it was, or a complete copy.
* `copyDemand` is the number of allocations that a complete copy takes: one
  for each stack block on a path of captured blocks, and one for each variable
  that is still on the stack.
* `blockCopy_allOrNothing_iff` says exactly when a call is all or nothing.
-/

namespace BlocksRuntime

open Ownership

/-! ## Complete copies -/

/-- The value of the captured variable `i` in the block at the end of the
path `p`. -/
def capturedAt (s : Mem) (b : Addr) (p : List Nat) (i : Nat) : Option Word :=
  (blockAt s b p).bind fun a => (s.blocks a).bind fun c =>
    (c.layout.captured[i]?).map Capture.value

/-- What is captured in the block `b`, at any depth, and is not `NULL`, is not
`NULL` in its copy `c`. -/
def Complete (s : Mem) (b : Addr) (t : Mem) (c : Addr) : Prop :=
  c ≠ NULL ∧ ∀ p i v, capturedAt s b p i = some v → v ≠ NULL →
    ∃ w, capturedAt t c p i = some w ∧ w ≠ NULL

/-- `_Block_copy` returns `NULL` and leaves all records as they were, or it
returns a complete copy.  It makes no access through `NULL`. -/
def AllOrNothing (env : Env) (s : Mem) (b : Addr) : Prop :=
  ∃ c t, blockCopy env b s = .ok (c, t) ∧
    ((c = NULL ∧ t.blocks = s.blocks ∧ t.byrefs = s.byrefs) ∨ Complete s b t c)

/-! ## The allocations that a copy takes -/

/-- The number of blocks that a copy of `b` makes, to the depth `n`. -/
def blocksNeeded (s : Mem) : Nat → Addr → Nat
  | 0, _ => 0
  | n + 1, b =>
    match s.blocks b with
    | none => 0
    | some c =>
      if c.storage = .stack then
        1 + (c.layout.captured.map fun x =>
          if x.kind = .block then blocksNeeded s n x.value else 0).sum
      else 0

/-- The variable `v` is on the stack and has no heap copy. -/
def unmoved (s : Mem) (v : Addr) : Bool :=
  match s.byrefs v with
  | none => false
  | some c => decide (c.storage = .stack ∧ c.byref.forwarding = v)

/-- The variables that a copy of `b` moves, to the depth `n`. -/
def variablesNeeded (s : Mem) : Nat → Addr → Finset Addr
  | 0, _ => ∅
  | n + 1, b =>
    match s.blocks b with
    | none => ∅
    | some c =>
      if c.storage = .stack then
        c.layout.captured.toFinset.biUnion fun x =>
          match x.kind with
          | .block => variablesNeeded s n x.value
          | .byref => if unmoved s x.value then {x.value} else ∅
          | .weakByref => if unmoved s x.value then {x.value} else ∅
          | _ => ∅
      else ∅

/-- The number of allocations that a complete copy of `b` takes.  A literal
captures older blocks only, so the depth `b + 1` suffices. -/
def copyDemand (s : Mem) (b : Addr) : Nat :=
  blocksNeeded s (b + 1) b + (variablesNeeded s (b + 1) b).card

section

variable {env : Env} {s t : Mem} {scope : Finset Addr} {X : Multiset Ref} {b : Addr}
  {c : BlockCell} {x : Capture} {n i : Nat}

/-! ## Paths -/

theorem capturedAt_nil (hc : s.blocks b = some c) (i : Nat) :
    capturedAt s b [] i = (c.layout.captured[i]?).map Capture.value := by
  simp [capturedAt, blockAt, hc]

theorem capturedAt_cons (hc : s.blocks b = some c) (hx : c.layout.captured[i]? = some x)
    (hk : x.kind = .block) (p : List Nat) (j : Nat) :
    capturedAt s b (i :: p) j = capturedAt s x.value p j := by
  simp [capturedAt, blockAt, blockIn, hc, hx, hk]

/-- A path through captured blocks starts with a captured block. -/
theorem capturedAt_cons_some {p : List Nat} {j : Nat} {v : Word}
    (h : capturedAt s b (i :: p) j = some v) :
    ∃ c x, s.blocks b = some c ∧ c.layout.captured[i]? = some x ∧ x.kind = .block ∧
      capturedAt s x.value p j = some v := by
  rw [capturedAt, blockAt] at h
  cases hin : blockIn s b i with
  | none =>
    rw [hin] at h
    cases h
  | some a =>
    rw [hin] at h
    cases hc : s.blocks b with
    | none =>
      rw [blockIn, hc] at hin
      cases hin
    | some c =>
      obtain ⟨x, _, hx, hk, rfl⟩ := blockIn_some hc hin
      exact ⟨c, x, rfl, hx, hk, h⟩

theorem capturedAt_persists (h : Persists env s t) (p : List Nat) :
    ∀ b i v, capturedAt s b p i = some v → capturedAt t b p i = some v := by
  induction p with
  | nil =>
    intro b i v hv
    cases hc : s.blocks b with
    | none => simp [capturedAt, blockAt, hc] at hv
    | some c =>
      obtain ⟨w, hw, _⟩ := h.block b c hc
      rw [capturedAt_nil hc] at hv
      rw [capturedAt_nil hw]
      exact hv
  | cons j p ih =>
    intro b i v hv
    obtain ⟨c, x, hc, hx, hk, hv⟩ := capturedAt_cons_some hv
    obtain ⟨w, hw, _⟩ := h.block b c hc
    rw [capturedAt_cons hw hx hk]
    exact ih x.value i v hv

/-! ## Complete and incomplete copies -/

/-- The copy of one captured variable is not `NULL` if nothing was lost. -/
theorem CopyOf.value_ne_null {x y : Capture} {made : List Addr} (ht : Rep t)
    (h : CopyOf s t [x] [y] made 0) (hx : x.value ≠ NULL) : y.value ≠ NULL := by
  have hrecord : ∀ {a : Addr} {d : ByrefCell}, t.byrefs a = some d → a ≠ NULL := by
    intro a d hd ha
    have hnull := ht.byref_null
    rw [← ha, hd] at hnull
    cases hnull
  generalize hl : 0 = lost at h
  cases h with
  | plain => exact hx
  | byref _ _ _ hd => exact hrecord hd
  | shared => exact hx
  | fresh _ _ _ _ hr => exact ht.ne_null hr
  | failed => cases hl

/-- A copy in which nothing was lost is complete. -/
theorem CopyOf.complete (ht : Rep t) (h : Persists env s t) (p : List Nat) :
    ∀ x y made, CopyOf s t [x] [y] made 0 → x.kind = .block → ∀ i v,
      capturedAt s x.value p i = some v → v ≠ NULL →
        ∃ w, capturedAt t y.value p i = some w ∧ w ≠ NULL := by
  induction p with
  | nil =>
    intro x y made hcopy hk i v hv hne
    rcases hcopy.block_cases hk with ⟨rfl, _⟩ | ⟨c, zs, w, m, hc, _, _, hr, _, hz, _⟩ | ⟨_, hl, _⟩
    · exact ⟨v, capturedAt_persists h [] _ _ _ hv, hne⟩
    · rw [capturedAt_nil hc, Option.map_eq_some_iff] at hv
      obtain ⟨x', hx', rfl⟩ := hv
      obtain ⟨y', m', l', hy', hcopy', hl'⟩ := hz.get hx'
      obtain rfl : l' = 0 := by omega
      refine ⟨y'.value, ?_, hcopy'.value_ne_null ht hne⟩
      rw [capturedAt_nil hr]
      show (zs[i]?).map Capture.value = _
      rw [hy']
      rfl
    · exact absurd hl (Nat.lt_irrefl 0)
  | cons j p ih =>
    intro x y made hcopy hk i v hv hne
    rcases hcopy.block_cases hk with ⟨rfl, _⟩ | ⟨c, zs, w, m, hc, _, _, hr, _, hz, _⟩ | ⟨_, hl, _⟩
    · exact ⟨v, capturedAt_persists h (j :: p) _ _ _ hv, hne⟩
    · obtain ⟨c', x', hc', hx', hk', hv'⟩ := capturedAt_cons_some hv
      rw [hc, Option.some.injEq] at hc'
      subst hc'
      obtain ⟨y', m', l', hy', hcopy', hl'⟩ := hz.get hx'
      obtain rfl : l' = 0 := by omega
      have hky' : y'.kind = .block := by
        have hks := hcopy'.kinds
        simp only [List.map_cons, List.map_nil, List.cons.injEq, and_true] at hks
        rw [hks, hk']
      rw [capturedAt_cons hr (x := y') hy' hky']
      exact ih x' y' m' hcopy' hk' i v hv' hne
    · exact absurd hl (Nat.lt_irrefl 0)

/-- Where a nested block was lost, the copy has a hole. -/
theorem CopyOf.hole {xs ys : List Capture} {made : List Addr} {lost : Nat} (hs : Rep s)
    (h : CopyOf s t xs ys made lost) : 0 < lost →
      ∃ (i : Nat) (x y : Capture), xs[i]? = some x ∧ ys[i]? = some y ∧ x.kind = .block ∧
        y.kind = .block ∧ x.value ≠ NULL ∧
      (y.value = NULL ∨ ∃ p j v, capturedAt s x.value p j = some v ∧ v ≠ NULL ∧
        capturedAt t y.value p j = some NULL) := by
  induction h with
  | nil => exact fun hl => absurd hl (Nat.lt_irrefl 0)
  | plain x _ _ ih =>
    intro hl
    obtain ⟨i, hole⟩ := ih hl
    exact ⟨i + 1, hole⟩
  | byref x _ _ _ _ _ ih =>
    intro hl
    obtain ⟨i, hole⟩ := ih hl
    exact ⟨i + 1, hole⟩
  | shared x _ _ _ ih =>
    intro hl
    obtain ⟨i, hole⟩ := ih hl
    exact ⟨i + 1, hole⟩
  | @fresh x _ _ _ _ _ l₁ l₂ c r w hk hc hst hr _ _ _ ihz ih =>
    intro hl
    by_cases hl₂ : 0 < l₂
    · obtain ⟨i, hole⟩ := ih hl₂
      exact ⟨i + 1, hole⟩
    · -- The hole is inside the copy of this block.
      obtain ⟨i, x', y', hx', hy', hk', hky', hne, hole⟩ := ihz (by omega)
      refine ⟨0, x, { x with value := r }, rfl, rfl, hk, hk, hs.ne_null hc, Or.inr ?_⟩
      rcases hole with hnull | ⟨p, j, v, hv, hvne, hhole⟩
      · refine ⟨[], i, x'.value, ?_, hne, ?_⟩
        · rw [capturedAt_nil hc, hx']
          rfl
        · show capturedAt t r [] i = _
          rw [capturedAt_nil hr, ← hnull]
          exact congrArg (Option.map Capture.value) hy'
      · refine ⟨i :: p, j, v, ?_, hvne, ?_⟩
        · rw [capturedAt_cons hc hx' hk']
          exact hv
        · show capturedAt t r (i :: p) j = _
          rw [capturedAt_cons hr (x := y') hy' hky']
          exact hhole
  | failed x hk hc _ _ _ =>
    exact fun _ => ⟨0, x, { x with value := NULL }, rfl, rfl, hk, hk, hs.ne_null hc, Or.inl rfl⟩

/-! ## Counting the allocations -/

/-- The blocks that the copy of one captured variable makes. -/
def captureBlocks (s : Mem) (n : Nat) (x : Capture) : Nat :=
  if x.kind = .block then blocksNeeded s n x.value else 0

/-- The variables that the copy of one captured variable moves. -/
def captureVariables (s : Mem) (n : Nat) (x : Capture) : Finset Addr :=
  match x.kind with
  | .block => variablesNeeded s n x.value
  | .byref => if unmoved s x.value then {x.value} else ∅
  | .weakByref => if unmoved s x.value then {x.value} else ∅
  | _ => ∅

theorem blocksNeeded_stack (hc : s.blocks b = some c) (hst : c.storage = .stack) (n : Nat) :
    blocksNeeded s (n + 1) b = 1 + (c.layout.captured.map (captureBlocks s n)).sum := by
  rw [blocksNeeded, hc]
  simp only [hst, if_true]
  rfl

theorem blocksNeeded_shared (h : ∀ c, s.blocks b = some c → c.storage ≠ .stack) (n : Nat) :
    blocksNeeded s n b = 0 := by
  cases n with
  | zero => rfl
  | succ n =>
    rw [blocksNeeded]
    cases hc : s.blocks b with
    | none => rfl
    | some c => simp only [if_neg (h c hc)]

theorem variablesNeeded_stack (hc : s.blocks b = some c) (hst : c.storage = .stack) (n : Nat) :
    variablesNeeded s (n + 1) b = c.layout.captured.toFinset.biUnion (captureVariables s n) := by
  rw [variablesNeeded, hc]
  simp only [hst, if_true]
  rfl

theorem variablesNeeded_some {v : Addr} (h : v ∈ variablesNeeded s n b) :
    ∃ m c, n = m + 1 ∧ s.blocks b = some c ∧ c.storage = .stack ∧
      ∃ x ∈ c.layout.captured, v ∈ captureVariables s m x := by
  cases n with
  | zero => exact absurd h (Finset.notMem_empty v)
  | succ m =>
    cases hc : s.blocks b with
    | none =>
      rw [variablesNeeded, hc] at h
      exact absurd h (Finset.notMem_empty v)
    | some c =>
      by_cases hst : c.storage = .stack
      · rw [variablesNeeded_stack hc hst, Finset.mem_biUnion] at h
        obtain ⟨x, hx, hv⟩ := h
        exact ⟨m, c, rfl, rfl, hst, x, List.mem_toFinset.1 hx, hv⟩
      · rw [variablesNeeded, hc] at h
        simp only [if_neg hst] at h
        exact absurd h (Finset.notMem_empty v)

theorem captureVariables_byref (hk : x.kind.isByref) (n : Nat) :
    captureVariables s n x = if unmoved s x.value then {x.value} else ∅ := by
  rcases hk with hk | hk <;> simp only [captureVariables, hk]

/-- A copy in which nothing was lost makes the blocks that are needed. -/
theorem CopyOf.made_length {xs ys : List Capture} {made : List Addr} {lost : Nat} (hs : Rep s)
    (h : CopyOf s t xs ys made lost) : lost = 0 → ∀ n,
      (∀ x ∈ xs, x.kind = .block → Nat.succ x.value ≤ n) →
        made.length = (xs.map (captureBlocks s n)).sum := by
  induction h with
  | nil => exact fun _ _ _ => rfl
  | plain x hk _ ih =>
    intro hl n hn
    have hx : captureBlocks s n x = 0 := by
      rcases hk with hk | hk <;> simp [captureBlocks, hk]
    rw [List.map_cons, List.sum_cons, hx, zero_add]
    exact ih hl n fun y hy => hn y (List.mem_cons_of_mem x hy)
  | byref x hk _ _ _ _ ih =>
    intro hl n hn
    have hx : captureBlocks s n x = 0 := by
      rcases hk with hk | hk <;> simp [captureBlocks, hk]
    rw [List.map_cons, List.sum_cons, hx, zero_add]
    exact ih hl n fun y hy => hn y (List.mem_cons_of_mem x hy)
  | shared x hk hshared _ ih =>
    intro hl n hn
    rw [List.map_cons, List.sum_cons, captureBlocks, if_pos hk, blocksNeeded_shared hshared,
      zero_add]
    exact ih hl n fun y hy => hn y (List.mem_cons_of_mem x hy)
  | @fresh x xs ys zs m₁ m₂ l₁ l₂ c r w hk hc hst hr hw hz h ihz ih =>
    intro hl n hn
    have hxn := hn x List.mem_cons_self hk
    obtain ⟨m, rfl⟩ : ∃ m, n = m + 1 := ⟨n - 1, by omega⟩
    have hinner : m₁.length = (c.layout.captured.map (captureBlocks s m)).sum := by
      refine ihz (by omega) m fun y hy hky => ?_
      have holder : Nat.succ y.value ≤ x.value := (hs.block_ok _ c hc).older hst y hy hky
      exact holder.trans (Nat.le_of_succ_le_succ hxn)
    have hrest := ih (by omega) (m + 1) fun y hy => hn y (List.mem_cons_of_mem x hy)
    rw [List.map_cons, List.sum_cons, captureBlocks, if_pos hk, blocksNeeded_stack hc hst,
      ← hinner, ← hrest, List.cons_append, List.length_cons, List.length_append]
    omega
  | failed x _ _ _ _ _ => exact fun hl => absurd hl (Nat.succ_ne_zero _)

theorem unmoved_iff {v : Addr} : unmoved s v = true ↔
    ∃ c, s.byrefs v = some c ∧ c.storage = .stack ∧ c.byref.forwarding = v := by
  unfold unmoved
  cases s.byrefs v with
  | none => simp
  | some c => simp

/-- The variables that are needed are those that are reached and still on the
stack. -/
theorem reaches_of_mem_variablesNeeded {v : Addr} (n : Nat) :
    ∀ x, v ∈ captureVariables s n x → Reaches s [x] v ∧ unmoved s v = true := by
  have hbyref : ∀ m x, x.kind.isByref → v ∈ captureVariables s m x →
      Reaches s [x] v ∧ unmoved s v = true := by
    intro m x hk hv
    rw [captureVariables_byref hk] at hv
    split at hv
    · next hu =>
      rw [Finset.mem_singleton.1 hv]
      exact ⟨.here _ x List.mem_cons_self hk, hu⟩
    · exact absurd hv (Finset.notMem_empty v)
  have hblock : ∀ m x, x.kind = .block → v ∈ captureVariables s m x →
      v ∈ variablesNeeded s m x.value := by
    intro m x hk hv
    simpa only [captureVariables, hk] using hv
  have hnone : ∀ m x, x.kind ≠ .block → ¬x.kind.isByref → v ∉ captureVariables s m x := by
    intro m x hk hk' hv
    unfold captureVariables at hv
    split at hv
    · next h => exact hk h
    · next h => exact hk' (Or.inl h)
    · next h => exact hk' (Or.inr h)
    · exact absurd hv (Finset.notMem_empty v)
  induction n with
  | zero =>
    intro x hv
    by_cases hk : x.kind.isByref
    · exact hbyref 0 x hk hv
    · by_cases hk' : x.kind = .block
      · exact absurd (hblock 0 x hk' hv) (Finset.notMem_empty v)
      · exact absurd hv (hnone 0 x hk' hk)
  | succ n ih =>
    intro x hv
    by_cases hk : x.kind.isByref
    · exact hbyref _ x hk hv
    · by_cases hk' : x.kind = .block
      · obtain ⟨m, c, hm, hc, hst, y, hy, hvy⟩ := variablesNeeded_some (hblock _ x hk' hv)
        obtain rfl : n = m := Nat.succ.inj hm
        obtain ⟨hr, hu⟩ := ih y hvy
        refine ⟨.nested _ x c v List.mem_cons_self hk' hc hst (hr.mono fun z hz => ?_), hu⟩
        rw [List.mem_singleton.1 hz]
        exact hy
      · exact absurd hv (hnone _ x hk' hk)

theorem Reaches.mem_captureVariables {xs : List Capture} {v : Addr} (hs : Rep s)
    (h : Reaches s xs v) (hu : unmoved s v = true) : ∀ n,
      (∀ x ∈ xs, x.kind = .block → Nat.succ x.value ≤ n) →
        ∃ x ∈ xs, v ∈ captureVariables s n x := by
  induction h with
  | here xs x hmem hk =>
    refine fun n _ => ⟨x, hmem, ?_⟩
    rw [captureVariables_byref hk, if_pos hu]
    exact Finset.mem_singleton_self _
  | nested xs x c v hmem hk hc hst _ ih =>
    intro n hn
    have hxn := hn x hmem hk
    obtain ⟨m, rfl⟩ : ∃ m, n = m + 1 := ⟨n - 1, by omega⟩
    obtain ⟨y, hy, hv⟩ := ih hu m fun y hy hky => by
      have holder : Nat.succ y.value ≤ x.value := (hs.block_ok _ c hc).older hst y hy hky
      exact holder.trans (Nat.le_of_succ_le_succ hxn)
    refine ⟨x, hmem, ?_⟩
    simp only [captureVariables, hk]
    rw [variablesNeeded_stack hc hst, Finset.mem_biUnion]
    exact ⟨y, List.mem_toFinset.2 hy, hv⟩

/-- The variables that a complete copy reaches have moved. -/
theorem Reaches.moves {xs : List Capture} {v : Addr} (hs : Rep s) (hp : Persists env s t)
    (h : Reaches s xs v) (hu : unmoved s v = true) : ∀ ys made,
      CopyOf s t xs ys made 0 → Moves s t v := by
  induction h with
  | here xs x hmem hk =>
    intro ys made hcopy
    obtain ⟨i, hi⟩ := List.getElem?_of_mem hmem
    obtain ⟨y, m, l, _, hcopy', _⟩ := hcopy.get hi
    obtain ⟨c, hc, hst, hf⟩ := unmoved_iff.1 hu
    obtain ⟨c', d, hc', hd, hheap⟩ : ∃ c' d, t.byrefs x.value = some c' ∧
        t.byrefs c'.byref.forwarding = some d ∧ d.storage = .heap := by
      cases hcopy' with
      | byref _ _ hc hd hheap => exact ⟨_, _, hc, hd, hheap⟩
      | plain _ hk' =>
        rcases hk with hk | hk <;> rcases hk' with hk' | hk' <;> rw [hk] at hk' <;> cases hk'
      | shared _ hk' => rcases hk with hk | hk <;> rw [hk] at hk' <;> cases hk'
      | fresh _ hk' => rcases hk with hk | hk <;> rw [hk] at hk' <;> cases hk'
      | failed _ hk' => rcases hk with hk | hk <;> rw [hk] at hk' <;> cases hk'
    rcases hp.byref_stack hc hst with hstay | ⟨_, p, hnew, hmove, _⟩
    · -- A variable that stayed has no copy on the heap.
      rw [hstay, Option.some.injEq] at hc'
      rw [← hc', hf, hstay, Option.some.injEq] at hd
      rw [← hd, hst] at hheap
      cases hheap
    · exact ⟨c, hc, hst, hf, p, ((hs.byref_lt _ c hc).trans_le hnew).ne', hmove⟩
  | nested xs x c v hmem hk hc hst _ ih =>
    intro ys made hcopy
    obtain ⟨i, hi⟩ := List.getElem?_of_mem hmem
    obtain ⟨y, m, l, _, hcopy', hl⟩ := hcopy.get hi
    obtain rfl : l = 0 := by omega
    rcases hcopy'.block_cases hk with ⟨_, _, _, hshared⟩ | ⟨c', zs, _, m', hc', _, _, _, _, hz, _⟩ |
      ⟨_, hl', _⟩
    · exact absurd hst (hshared c hc)
    · rw [hc, Option.some.injEq] at hc'
      subst hc'
      exact ih hu zs m' hz
    · exact absurd hl' (Nat.lt_irrefl 0)

/-- A complete copy makes `copyDemand` allocations. -/
theorem Copied.demand {r : Addr} {made : List Addr} {moved : List Addr} {e : Multiset Ref}
    (hs : Rep s) (h : Copied env s scope none s t [⟨.block, b⟩] [⟨.block, r⟩] made 0 moved e) :
    t.mallocs = s.mallocs + copyDemand s b := by
  have hdepth : ∀ x ∈ [(⟨.block, b⟩ : Capture)], x.kind = .block → Nat.succ x.value ≤ b + 1 := by
    intro x hx _
    rw [List.mem_singleton.1 hx]
  have hmade : made.length = blocksNeeded s (b + 1) b := by
    rw [h.copy.made_length hs rfl (b + 1) hdepth]
    simp [captureBlocks]
  have hmoved : moved.toFinset = variablesNeeded s (b + 1) b := by
    ext v
    rw [List.mem_toFinset]
    refine ⟨fun hv => ?_, fun hv => ?_⟩
    · obtain ⟨c, hc, hst, hf, _⟩ := (h.moved_iff v).1 hv
      obtain ⟨x, hx, hmem⟩ := (h.moved_reached v hv).mem_captureVariables hs
        (unmoved_iff.2 ⟨c, hc, hst, hf⟩) (b + 1) hdepth
      rw [List.mem_singleton.1 hx] at hmem
      exact hmem
    · obtain ⟨hr, hu⟩ := reaches_of_mem_variablesNeeded (s := s) (b + 1) ⟨.block, b⟩ hv
      exact (h.moved_iff v).2 (hr.moves hs h.frame.persists hu _ _ h.copy)
  rw [h.mallocs, hmade, copyDemand, ← hmoved, List.toFinset_card_of_nodup h.moved_nodup]
  omega

/-! ## The outermost allocation -/

/-- The environment in which no allocation fails. -/
def Env.generous (env : Env) : Env := { env with mallocOk := fun _ => true }

/-- Without memory for the block itself, nothing happens. -/
theorem blockCopyN_none (hs : Rep s) (hc : s.blocks b = some c) (hst : c.storage = .stack)
    (hmalloc : env.mallocOk s.mallocs = false) :
    blockCopyN env n b s = .ok (NULL, { s with mallocs := s.mallocs + 1 }) := by
  have hok := hs.block_ok b c hc
  unfold blockCopyN blockCopyBody
  rw [if_neg (hs.ne_null hc), bind_ok (loadBlock_ok hc), if_neg (hok.not_needsFree hst),
    if_neg (hok.not_isGlobal hst), bind_ok (malloc_none hmalloc)]
  rfl

/-- With memory for the block itself, the result is not `NULL`. -/
theorem blockCopyN_some {r : Addr} (hs : Rep s) (hc : s.blocks b = some c)
    (hst : c.storage = .stack) (hmalloc : env.mallocOk s.mallocs = true)
    (hrun : blockCopyN env n b s = .ok (r, t)) : r = s.next := by
  have hok := hs.block_ok b c hc
  unfold blockCopyN blockCopyBody at hrun
  rw [if_neg (hs.ne_null hc), bind_ok (loadBlock_ok hc), if_neg (hok.not_needsFree hst),
    if_neg (hok.not_isGlobal hst), bind_ok (malloc_ok hmalloc)] at hrun
  simp only at hrun
  rw [bind_ok (log_apply _ _), bind_ok (storeBlock_apply _ _ _), bind_apply] at hrun
  split at hrun
  · rw [bind_apply] at hrun
    split at hrun
    · rw [pure_apply, Except.ok.injEq, Prod.mk.injEq] at hrun
      exact hrun.1.symm
    · cases hrun
  · cases hrun

/-! ## The result -/

/-- If the allocations that a complete copy takes succeed, the copy is
complete. -/
theorem allOrNothing_of_demand (hd : Disciplined s scope X) (hb : Alive s scope b)
    (hmalloc : ∀ k, s.mallocs ≤ k → k < s.mallocs + copyDemand s b → env.mallocOk k = true) :
    AllOrNothing env s b := by
  -- The run without failures makes the demanded allocations only, so it is also the run here.
  have hgenerous : ∀ k, env.generous.mallocOk k = true := fun _ => rfl
  obtain ⟨r, t, made, moved, e, hrun, hc⟩ :=
    blockCopy_ok hd.rep hd.counted hd.positive hgenerous hb
  have hdemand := hc.demand hd.rep
  obtain ⟨_, hsame⟩ := usesOwnCalls_blockCopy b env.generous env s r t rfl hrun
  refine ⟨r, t, hsame fun k hl hu => hmalloc k hl (hdemand ▸ hu),
    Or.inr ⟨?_, fun p i v hv hne => ?_⟩⟩
  · obtain ⟨c, hcell⟩ := hb.cell
    exact hc.copy.value_ne_null hc.rep (hd.rep.ne_null hcell)
  · exact hc.copy.complete hc.rep hc.frame.persists p _ _ _ rfl i v hv hne

/-- `_Block_copy` is all or nothing exactly when the first allocation fails,
or none of those that a complete copy takes. -/
theorem blockCopy_allOrNothing_iff (hd : Disciplined s scope X) (hb : Alive s scope b) :
    AllOrNothing env s b ↔ env.mallocOk s.mallocs = false ∨
      ∀ k, s.mallocs ≤ k → k < s.mallocs + copyDemand s b → env.mallocOk k = true := by
  obtain ⟨c, hc⟩ := hb.cell
  constructor
  · intro h
    obtain ⟨r, t, hrun, hcase⟩ := h
    have hspec : Outcome env s (blockCopy env b s) (CopiedTo env s scope s ⟨.block, b⟩) :=
      blockCopy_spec hd.rep hd.counted hd.positive hb
    obtain ⟨made, lost, moved, e, hcopied⟩ : CopiedTo env s scope s ⟨.block, b⟩ r t := by
      rcases hspec with ⟨herr, _⟩ | ⟨r', t', hrun', hP⟩
      · rw [hrun] at herr
        cases herr
      · rw [hrun, Except.ok.injEq, Prod.mk.injEq] at hrun'
        obtain ⟨rfl, rfl⟩ := hrun'
        exact hP
    by_cases hmalloc : env.mallocOk s.mallocs = false
    · exact Or.inl hmalloc
    · rw [Bool.not_eq_false] at hmalloc
      -- Nothing can be lost: the block itself is there, and a complete copy has no hole.
      have hlost : lost = 0 := by
        by_contra hne
        obtain ⟨i, x, y, hx, hy, hk, _, hxv, hole⟩ :=
          hcopied.copy.hole hd.rep (Nat.pos_of_ne_zero hne)
        have hi : i = 0 := by
          by_contra hi
          rw [List.getElem?_eq_none (by simp; omega)] at hx
          cases hx
        subst hi
        rw [List.getElem?_cons_zero, Option.some.injEq] at hx hy
        subst hx hy
        have hst : c.storage = .stack := by
          rcases hcopied.copy.block_cases rfl with ⟨_, _, hl, _⟩ | ⟨d, _, _, _, hd', hst, _⟩ |
            ⟨_, _, d, hd', hst⟩
          · exact absurd hl hne
          · rw [hc, Option.some.injEq] at hd'
            rw [hd', hst]
          · rw [hc, Option.some.injEq] at hd'
            rw [hd', hst]
        have hr : r ≠ NULL := by
          rw [blockCopyN_some hd.rep hc hst hmalloc hrun]
          exact hd.rep.next_pos.ne'
        rcases hcase with ⟨hnull, _⟩ | ⟨_, hcomplete⟩
        · exact hr hnull
        · rcases hole with hnull | ⟨p, j, v, hv, hvne, hhole⟩
          · exact hr hnull
          · obtain ⟨w, hw, hwne⟩ := hcomplete p j v hv hvne
            rw [hhole, Option.some.injEq] at hw
            exact hwne hw.symm
      subst hlost
      refine Or.inr fun k hl hu => hcopied.calls.1 rfl k hl ?_
      rw [hcopied.demand hd.rep]
      exact hu
  · intro h
    rcases h with hfail | hmalloc
    · by_cases hst : c.storage = .stack
      · exact ⟨NULL, _, blockCopyN_none hd.rep hc hst hfail, Or.inl ⟨rfl, rfl, rfl⟩⟩
      · -- A block that is shared takes no allocation.
        refine allOrNothing_of_demand hd hb fun k hl hu => ?_
        have hblocks : blocksNeeded s (b + 1) b = 0 := by
          refine blocksNeeded_shared (fun d hd' => ?_) _
          rw [hc, Option.some.injEq] at hd'
          exact hd' ▸ hst
        have hvariables : variablesNeeded s (b + 1) b = ∅ := by
          refine Finset.eq_empty_of_forall_notMem fun v hv => ?_
          obtain ⟨_, d, _, hd', hst', _⟩ := variablesNeeded_some hv
          rw [hc, Option.some.injEq] at hd'
          exact hst (hd' ▸ hst')
        rw [copyDemand, hblocks, hvariables, Finset.card_empty] at hu
        omega
    · exact allOrNothing_of_demand hd hb hmalloc

end

theorem blockCopy_allOrNothing_nested :
    AllOrNothing plentiful nested 3 ↔ plentiful.mallocOk nested.mallocs = false ∨
      ∀ k, nested.mallocs ≤ k → k < nested.mallocs + copyDemand nested 3 →
        plentiful.mallocOk k = true :=
  blockCopy_allOrNothing_iff nested_disciplined nested_alive

/-- An environment in which two allocations succeed. -/
def scarce : Env where
  mallocOk k := decide (k < 2)
  junk _ := 0

/-- The third allocation is the one of `_Block_byref_copy`. -/
theorem not_allOrNothing_nested :
    Disciplined nested {3, 2, 1} 0 ∧ Alive nested {3, 2, 1} 3 ∧
      blockCopy scarce 3 nested = .error .nullAccess ∧ ¬AllOrNothing scarce nested 3 := by
  have hrun : blockCopy scarce 3 nested = .error .nullAccess := rfl
  refine ⟨nested_disciplined, nested_alive, hrun, fun h => ?_⟩
  obtain ⟨c, t, hok, _⟩ := h
  rw [hrun] at hok
  cases hok

end BlocksRuntime
