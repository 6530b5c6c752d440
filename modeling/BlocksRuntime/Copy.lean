import BlocksRuntime.CopySteps

/-!
# Copying

`_Block_copy`, `_Block_byref_copy` and the copy helpers, on a memory that is
used according to the ownership discipline, and for any behaviour of `malloc`.

* `Outcome` is what a call comes to: it stops at a `NULL` result of `malloc`,
  or it returns.
* `CopiesField` and `CopiesBlock` say that what a call returns is `Copied`.
  A block is filled variable by variable (`copyFields_spec`), and `Filling` is
  the invariant.
* `blockCopy_spec` is the result for `_Block_copy`.  The induction is on
  `Alive`, and the recursion bound suffices because a literal captures older
  blocks only.
-/

namespace BlocksRuntime

open Ownership

/-- A call stops at a `NULL` result of `malloc`, or it returns. -/
def Outcome {β : Type} (env : Env) (s : Mem) (run : Except Fault (β × Mem))
    (P : β → Mem → Prop) : Prop :=
  (run = .error .nullAccess ∧ ∃ k, s.mallocs ≤ k ∧ env.mallocOk k = false) ∨
    ∃ b t, run = .ok (b, t) ∧ P b t

/-- The conditions under which copying goes on at `s`, seen from `s₀`. -/
structure Ready (env : Env) (s₀ : Mem) (scope : Finset Addr) (s : Mem) (X : Multiset Ref) :
    Prop where
  persists : Persists env s₀ s
  rep : Rep s
  counted : Counted s scope X
  positive : Positive (graphOf s)

/-- The variable `x` becomes `x` with the value `v`. -/
def CopiedTo (env : Env) (s₀ : Mem) (scope : Finset Addr) (s : Mem) (x : Capture) (v : Addr)
    (t : Mem) : Prop :=
  ∃ made lost moved e,
    Copied env s₀ scope none s t [x] [{ x with value := v }] made lost moved e

/-- `_Block_object_assign` copies the variable `x`. -/
def CopiesField (env : Env) (s₀ : Mem) (scope : Finset Addr) (n : Nat) (x : Capture) : Prop :=
  ∀ (s : Mem) (X : Multiset Ref) (flags : Flags), Ready env s₀ scope s X →
    x.kind.flags = some flags →
    Outcome env s (blockObjectAssignN env n x.value flags s) fun v t =>
      ∃ a, v = some a ∧ CopiedTo env s₀ scope s x a t

/-- `_Block_copy` copies the block `b`. -/
def CopiesBlock (env : Env) (s₀ : Mem) (scope : Finset Addr) (n : Nat) (b : Addr) : Prop :=
  ∀ (s : Mem) (X : Multiset Ref) (x : Capture), Ready env s₀ scope s X → x.kind = .block →
    x.value = b → Outcome env s (blockCopyN env n b s) (CopiedTo env s₀ scope s x)

section

variable {env : Env} {s₀ s t u : Mem} {scope : Finset Addr} {X : Multiset Ref} {n : Nat}

theorem Outcome.bind {β γ : Type} {x : M β} {f : β → M γ} {P : β → Mem → Prop}
    {Q : γ → Mem → Prop} (h : Outcome env s (x s) P)
    (hf : ∀ b t, P b t → s.mallocs ≤ t.mallocs ∧ Outcome env t (f b t) Q) :
    Outcome env s ((x >>= f) s) Q := by
  rcases h with ⟨herr, hk⟩ | ⟨b, t, hok, hP⟩
  · exact Or.inl ⟨bind_error herr, hk⟩
  · rw [bind_ok hok]
    obtain ⟨hle, hout⟩ := hf b t hP
    rcases hout with ⟨herr, k, hk, hfail⟩ | hout
    · exact Or.inl ⟨herr, k, hle.trans hk, hfail⟩
    · exact Or.inr hout

/-- Copying goes on after some variables were copied. -/
theorem Ready.next {d : Option Addr} {xs ys : List Capture} {made : List Addr} {lost : Nat}
    {moved : List Addr} {e : Multiset Ref} (h : Ready env s₀ scope s X)
    (hc : Copied env s₀ scope d s t xs ys made lost moved e) :
    Ready env s₀ scope t (ownedRefs ys + X) :=
  ⟨h.persists.trans hc.frame.persists, hc.rep, hc.counted h.counted, hc.positive h.positive⟩

/-! ## Variables -/

/-- A `__block` variable that was alive at `s₀`, at `s`: it is on the stack
and in scope, or it has its record on the heap. -/
theorem Ready.byref_cases {v : Addr} (h : Ready env s₀ scope s X) (hs₀ : Rep s₀)
    (hv : AliveByref s₀ scope v) :
    ∃ c, s.byrefs v = some c ∧
      ((c.storage = .stack ∧ c.byref.forwarding = v ∧ v ∈ scope) ∨
        ∃ d, s.byrefs c.byref.forwarding = some d ∧ d.Live ∧ 0 < refcount d.byref.flags) := by
  obtain ⟨c₀, hc₀, hscope, hlive⟩ := hv
  have hpos : ∀ {p d}, s.byrefs p = some d → d.Live → 0 < refcount d.byref.flags :=
    fun {p d} hd hl =>
      h.positive (.byref p) (byrefNode d) (nodeAt_byref hd (h.rep.byref_lt p d hd) hl)
  by_cases hst : c₀.storage = .stack
  · obtain ⟨c, hc, hcst⟩ : ∃ c, s.byrefs v = some c ∧ c.storage = .stack := by
      rcases h.persists.byref_stack hc₀ hst with hstay | ⟨_, p, _, hmove, _⟩
      · exact ⟨c₀, hstay, hst⟩
      · exact ⟨_, hmove, hst⟩
    refine ⟨c, hc, ?_⟩
    by_cases hf : c.byref.forwarding = v
    · exact Or.inl ⟨hcst, hf, hscope hst⟩
    · obtain ⟨d, hd, hl⟩ := h.counted.variable_cases (hscope hst) hc hcst hf
      exact Or.inr ⟨d, hd, hl, hpos hd hl⟩
  · have hheap : c₀.storage = .heap := by
      have hng := (hs₀.byref_ok v c₀ hc₀).notGlobal
      cases hstorage : c₀.storage <;> simp_all
    obtain ⟨w, hw, hm, _⟩ := h.persists.byref_heap hc₀ hst
    have hl := (ByrefCell.live_withFlags hm).2 (hlive hheap)
    have hf : (c₀.withFlags w).byref.forwarding = v := (h.rep.byref_ok v _ hw).heap hheap
    exact ⟨_, hw, Or.inr ⟨_, by rw [hf, hw], hl, hpos hw hl⟩⟩

/-- `_Block_byref_copy` on a variable that is alive. -/
theorem blockByrefCopyN_spec {x : Capture} (hs₀ : Rep s₀) (h : Ready env s₀ scope s X)
    (hx : x.kind.isByref) (hv : AliveByref s₀ scope x.value) :
    Outcome env s (blockByrefCopyN env (n + 1) x.value s) (CopiedTo env s₀ scope s x) := by
  obtain ⟨c, hc, hcase | ⟨d, hd, hl, hpos⟩⟩ := h.byref_cases hs₀ hv
  · obtain ⟨hst, hf, hscope⟩ := hcase
    cases hmalloc : env.mallocOk s.mallocs with
    | true =>
      exact Or.inr ⟨_, _, blockByrefCopyN_move h.rep hc hst hf hmalloc, _, _, _, _,
        copied_move h.rep hx rfl hc hst hf hscope hmalloc⟩
    | false =>
      exact Or.inl ⟨blockByrefCopyN_fault _ h.rep hc hst hf hmalloc, s.mallocs, le_rfl, hmalloc⟩
  · obtain ⟨w, hcount, hm, hrun⟩ := blockByrefCopyN_heap env (n + 1) h.rep hc hd hl hpos
    exact Or.inr ⟨_, _, hrun, _, _, _, _, copied_byref h.rep hx hc hd hl hcount hm⟩

/-- One variable, given that the block in it is copied. -/
theorem copiesField {x : Capture} (hs₀ : Rep s₀)
    (hblock : x.kind = .block → CopiesBlock env s₀ scope (n + 1) x.value)
    (hbyref : x.kind.isByref → AliveByref s₀ scope x.value) :
    CopiesField env s₀ scope (n + 2) x := by
  intro s X flags h hflags
  rw [blockObjectAssignN_succ, blockObjectAssignBody_kind _ _ _ _ hflags]
  have hreturn : ∀ {m : M Addr}, Outcome env s (m s) (CopiedTo env s₀ scope s x) →
      Outcome env s ((do return some (← m) : M (Option Addr)) s) fun v t =>
        ∃ a, v = some a ∧ CopiedTo env s₀ scope s x a t := by
    intro m hm
    refine hm.bind fun a t hP => ⟨?_, Or.inr ⟨some a, t, rfl, a, rfl, hP⟩⟩
    obtain ⟨_, _, _, _, hc⟩ := hP
    exact hc.frame.mallocs_le
  cases hk : x.kind with
  | plain =>
    rw [hk] at hflags
    cases hflags
  | object => exact Or.inr ⟨_, _, rfl, x.value, rfl, _, _, _, _, copied_object h.rep hk⟩
  | block => exact hreturn (hblock hk s X x h hk rfl)
  | byref =>
    have hx : x.kind.isByref := Or.inl hk
    exact hreturn (blockByrefCopyN_spec hs₀ h hx (hbyref hx))
  | weakByref =>
    have hx : x.kind.isByref := Or.inr hk
    exact hreturn (blockByrefCopyN_spec hs₀ h hx (hbyref hx))

/-! ## Filling a fresh block -/

/-- The block `r` is being filled: the variables `xs` are copied, and `rest`
are still bitwise copies. -/
structure Filling (env : Env) (s₀ : Mem) (scope : Finset Addr) (s : Mem) (r : Addr)
    (b : BlockLayout) (H : List Event) (t : Mem) (xs ys rest : List Capture) : Prop where
  copied : ∃ made lost moved e, Copied env s₀ scope (some r) s t xs ys made lost moved e
  cell : t.blocks r = some (halfBlock b (ys ++ rest))
  birth : history (.block r) t.trace = H

theorem not_live_halfBlock {b : BlockLayout} {zs : List Capture} (hb : b.isa ≠ .mallocBlock) :
    ¬(halfBlock b zs).Live := fun h => hb h.2.1

/-- The copies do not involve a block that is not live. -/
theorem CopyOf.setBlock_dead {xs ys : List Capture} {made : List Addr} {lost : Nat} {r : Addr}
    {c d : BlockCell} (h : CopyOf s₀ t xs ys made lost) (hc : t.blocks r = some c) (hl : ¬c.Live) :
    CopyOf s₀ (t.setBlock r d) xs ys made lost := by
  induction h with
  | nil => exact .nil
  | plain x hx _ ih => exact .plain x hx ih
  | byref x hx hc' hd hheap _ ih => exact .byref x hx hc' hd hheap ih
  | shared x hx hs _ ih => exact .shared x hx hs ih
  | @fresh x _ _ _ _ _ _ _ c' r' w hx hc' hs hr hw _ _ ihz ih =>
    have hne : r' ≠ r := fun he => by
      rw [he, hc, Option.some.injEq] at hr
      refine hl ?_
      rw [hr]
      exact ⟨rfl, rfl, by
        rw [show ((heapBlock c'.layout _).withFlags w).layout.flags = w from rfl, hw.dealloc]
        exact heapBlockFlags_isDeallocating _⟩
    exact .fresh x hx hc' hs (by rw [Mem.setBlock_blocks_ne t d hne]; exact hr) hw ihz ih
  | failed x hx hc' hs _ ih => exact .failed x hx hc' hs ih

/-- A variable is stored into the block that is being filled. -/
theorem Copied.store {r : Addr} {b : BlockLayout} {xs ys zs zs' : List Capture} {made : List Addr}
    {lost : Nat} {moved : List Addr} {e : Multiset Ref}
    (h : Copied env s₀ scope (some r) s t xs ys made lost moved e) (hs : s.blocks r = none)
    (hr : t.blocks r = some (halfBlock b zs)) (hb : b.isa ≠ .mallocBlock)
    (hok : (halfBlock b zs').Ok r) :
    Copied env s₀ scope (some r) s (t.setBlock r (halfBlock b zs')) xs ys made lost moved e where
  rep := h.rep.setBlock hr hok
  frame := { h.frame with
    persists := { h.frame.persists with
      block := fun a c hc => by
        have hne : a ≠ r := fun he => by
          rw [he, hs] at hc
          cases hc
        rw [Mem.setBlock_blocks_ne t _ hne]
        exact h.frame.persists.block a c hc }
    block_old := fun a ha => by
      by_cases hne : a = r
      · subst hne
        exact absurd hs (ha.resolve_right (by simp))
      · rw [Mem.setBlock_blocks_ne t _ hne] at ha
        exact h.frame.block_old a ha
    block_new := fun a c hsa hta => by
      by_cases hne : a = r
      · subst hne
        rw [Mem.setBlock_blocks_self, Option.some.injEq] at hta
        exact ⟨by rw [← hta]; rfl, fun had => absurd rfl had⟩
      · rw [Mem.setBlock_blocks_ne t _ hne] at hta
        exact h.frame.block_new a c hsa hta }
  grows := by
    have hg : graphOf (t.setBlock r (halfBlock b zs')) = graphOf t := by
      rw [graphOf_setBlock_dead t (not_live_halfBlock hb)]
      exact Graph.erase_of_none (nodeAt_block_dead hr (not_live_halfBlock hb))
    rw [hg]
    exact h.grows
  copy := h.copy.setBlock_dead hr (not_live_halfBlock hb)
  made_lt := h.made_lt
  made_range := h.made_range
  made_all a c hsa hta had := by
    have hne : a ≠ r := fun he => had (by rw [he])
    rw [Mem.setBlock_blocks_ne t _ hne] at hta
    exact h.made_all a c hsa hta had
  moved_nodup := h.moved_nodup
  moved_iff := h.moved_iff
  moved_reached := h.moved_reached
  mallocs := h.mallocs
  calls := h.calls

section

variable {r : Addr} {b : BlockLayout} {H : List Event} {xs ys rest : List Capture} {x : Capture}

theorem modify_length_append (ys rest : List Capture) (x : Capture) (f : Capture → Capture) :
    (ys ++ x :: rest).modify ys.length f = ys ++ f x :: rest := by
  induction ys with
  | nil => rfl
  | cons y ys ih => simp [ih]

theorem kind_plain_of_map {zs zs' : List Capture}
    (h : zs.map Capture.kind = zs'.map Capture.kind) (hp : ∀ x ∈ zs', x.kind = .plain) :
    ∀ x ∈ zs, x.kind = .plain := by
  intro x hx
  have hmem : x.kind ∈ zs'.map Capture.kind := h ▸ List.mem_map_of_mem hx
  obtain ⟨y, hy, hxy⟩ := List.mem_map.1 hmem
  rw [← hxy, hp y hy]

theorem halfBlock_ok {zs : List Capture} {a : Addr} {c : BlockCell} (hok : c.Ok a)
    (hst : c.storage = .stack) (hz : zs.map Capture.kind = c.layout.captured.map Capture.kind) :
    (halfBlock c.layout zs).Ok r where
  needsFree := iff_of_true (heapBlockFlags_needsFree _) rfl
  isGlobal := by
    show heapBlockFlags c.layout.flags &&& BLOCK_IS_GLOBAL ≠ 0 ↔ _
    rw [heapBlockFlags_other _ (by decide) (by decide), hok.isGlobal, hst]
    exact iff_of_false (by decide) (by simp [halfBlock])
  isa h := absurd rfl h
  plain h := by cases h
  helpers := by
    show heapBlockFlags c.layout.flags &&& BLOCK_HAS_COPY_DISPOSE = 0 → _
    rw [heapBlockFlags_other _ (by decide) (by decide)]
    exact fun h => kind_plain_of_map hz (hok.helpers h)
  descriptor := by
    show heapBlockFlags c.layout.flags &&& BLOCK_HAS_COPY_DISPOSE ≠ 0 → _
    rw [heapBlockFlags_other _ (by decide) (by decide)]
    exact hok.descriptor
  older h := by cases h

/-- A variable that the helper leaves alone. -/
theorem Filling.skip (h : Filling env s₀ scope s r b H t xs ys (x :: rest)) (hx : x.kind = .plain) :
    Filling env s₀ scope s r b H t (xs ++ [x]) (ys ++ [x]) rest := by
  obtain ⟨made, lost, moved, e, hc⟩ := h.copied
  refine ⟨⟨_, _, _, _, hc.trans (copied_plain hc.rep (by simp [hx]))⟩, ?_, h.birth⟩
  rw [h.cell, List.append_assoc]
  rfl

/-- A variable that was copied is stored. -/
theorem Filling.step {v : Addr} (h : Filling env s₀ scope s r b H t xs ys (x :: rest))
    (hs : s.blocks r = none) (hb : b.isa ≠ .mallocBlock)
    (hok : (halfBlock b (ys ++ [{ x with value := v }] ++ rest)).Ok r)
    (hx : CopiedTo env s₀ scope t x v u) :
    storeCapture r ys.length v u =
        .ok ((), u.setBlock r (halfBlock b (ys ++ [{ x with value := v }] ++ rest))) ∧
      Filling env s₀ scope s r b H
        (u.setBlock r (halfBlock b (ys ++ [{ x with value := v }] ++ rest)))
        (xs ++ [x]) (ys ++ [{ x with value := v }]) rest := by
  obtain ⟨made, lost, moved, e, hc⟩ := h.copied
  obtain ⟨made', lost', moved', e', hc'⟩ := hx
  have hcell := hc'.frame.persists.block_dead h.cell (not_live_halfBlock hb)
  refine ⟨?_, ⟨_, _, _, _, (hc.trans hc').store hs hcell hb hok⟩,
    Mem.setBlock_blocks_self _ _ _, ?_⟩
  · unfold storeCapture
    rw [updateBlock_ok hcell]
    simp [halfBlock, modify_length_append]
  · show history (.block r) u.trace = H
    rw [hc'.frame.block_old r (Or.inl (by simp [h.cell])), h.birth]

/-- The captured variables are copied one after the other. -/
theorem copyFields_spec {a : Addr} {c : BlockCell} (h₀ : Ready env s₀ scope s X)
    (hs : s.blocks r = none) (hok : c.Ok a) (hst : c.storage = .stack)
    (rest : List Capture) :
    ∀ (t : Mem) (xs ys : List Capture), c.layout.captured = xs ++ rest →
      (∀ x ∈ rest, x.kind.flags ≠ none → CopiesField env s₀ scope n x) →
      Filling env s₀ scope s r c.layout H t xs ys rest →
      Outcome env t (copyFields (blockObjectAssignN env n) r ys.length rest t) fun _ u =>
        ∃ zs, Filling env s₀ scope s r c.layout H u c.layout.captured zs [] ∧
          t.mallocs ≤ u.mallocs := by
  induction rest with
  | nil =>
    intro t xs ys hxs _ hfill
    rw [List.append_nil] at hxs
    rw [← hxs] at hfill
    exact Or.inr ⟨(), t, rfl, ys, hfill, le_rfl⟩
  | cons x rest ih =>
    intro t xs ys hxs hfields hfill
    have hkinds : ∀ v, (ys ++ [{ x with value := v }] ++ rest).map Capture.kind =
        c.layout.captured.map Capture.kind := fun v => by
      obtain ⟨_, _, _, _, hc⟩ := hfill.copied
      rw [hxs, List.map_append, List.map_append, List.map_append, hc.copy.kinds]
      simp
    have hxs' : c.layout.captured = (xs ++ [x]) ++ rest := by
      rw [hxs, List.append_assoc]
      rfl
    have hlen : ∀ y : Capture, ys.length + 1 = (ys ++ [y]).length := fun y => by simp
    have hrest : ∀ y ∈ rest, y.kind.flags ≠ none → CopiesField env s₀ scope n y :=
      fun y hy => hfields y (List.mem_cons_of_mem x hy)
    rw [copyFields]
    cases hk : x.kind.flags with
    | none =>
      have hplain : x.kind = .plain := FieldKind.eq_plain hk
      simp only
      rw [hlen x]
      exact ih t _ _ hxs' hrest (hfill.skip hplain)
    | some flags =>
      simp only
      obtain ⟨_, _, _, _, hc⟩ := hfill.copied
      refine (hfields x List.mem_cons_self (by simp [hk]) t _ flags (h₀.next hc) hk).bind
        fun v u hv => ?_
      obtain ⟨v, rfl, hcopied⟩ := hv
      obtain ⟨hstore, hfill'⟩ := hfill.step hs (hok.isa (by rw [hst]; decide))
        (halfBlock_ok hok hst (hkinds v)) hcopied
      have hle : t.mallocs ≤ u.mallocs := by
        obtain ⟨_, _, _, _, hc'⟩ := hcopied
        exact hc'.frame.mallocs_le
      refine ⟨hle, ?_⟩
      simp only
      rw [bind_ok hstore, hlen { x with value := v }]
      refine (ih _ _ _ hxs' hrest hfill').imp id fun hret => ?_
      obtain ⟨_, u', hrun, zs, hzs, hle'⟩ := hret
      exact ⟨(), u', hrun, zs, hzs, hle.trans hle'⟩

end

/-! ## Making a block -/

section

variable {b r : Addr} {c : BlockCell} {x : Capture} {zs : List Capture} {H : List Event}

/-- The memory after the allocation for a copy of the block `b`. -/
def Mem.allotted (s : Mem) (b : Addr) (c : BlockCell) : Mem :=
  { s with
    next := s.next + 1
    mallocs := s.mallocs + 1
    trace := s.trace ++ blockBirth b s.next c }

/-- The memory after the bitwise copy of the block `b`. -/
def Mem.making (s : Mem) (b : Addr) (c : BlockCell) : Mem :=
  (s.allotted b c).setBlock s.next (halfBlock c.layout c.layout.captured)

theorem blockDescriptor2_heapBlock (b : BlockLayout) (zs : List Capture) :
    blockDescriptor2 (heapBlock b zs).layout = blockDescriptor2 b := by
  have hflags : heapBlockFlags b.flags &&& BLOCK_HAS_COPY_DISPOSE =
      b.flags &&& BLOCK_HAS_COPY_DISPOSE := heapBlockFlags_other _ (by decide) (by decide)
  simp only [blockDescriptor2, heapBlock, hflags]

theorem blockBirth_heapBlock (src a : Addr) (c : BlockCell) (zs : List Capture) :
    blockBirth src a (heapBlock c.layout zs) = blockBirth src a c := by
  rw [blockBirth, blockDescriptor2_heapBlock, blockBirth]

theorem history_blockBirth (r : Ref) (src a : Addr) (c : BlockCell) :
    history r (blockBirth src a c) = if r = .block a then blockBirth src a c else [] := by
  unfold blockBirth
  by_cases hr : r = .block a
  · subst hr
    rw [if_pos rfl]
    cases blockDescriptor2 c.layout <;> simp [history, Event.subject]
  · rw [if_neg hr]
    cases blockDescriptor2 c.layout <;> simp [history, Event.subject, Ne.symm hr]

theorem history_allotted_ne {r : Ref} (hr : r ≠ .block s.next) (b : Addr) (c : BlockCell) :
    history r (s.allotted b c).trace = history r s.trace := by
  show history r (s.trace ++ blockBirth b s.next c) = _
  rw [history_append, history_blockBirth, if_neg hr, List.append_nil]

theorem rep_allotted (hs : Rep s) : Rep (s.allotted b c) := hs.bump.of_eq rfl rfl rfl

theorem rep_making (hs : Rep s) (hok : (halfBlock c.layout c.layout.captured).Ok s.next) :
    Rep (s.making b c) :=
  (rep_allotted hs).storeBlock (Nat.lt_succ_self _) hs.next_pos.ne' hs.byref_next hok

theorem graphOf_allotted (hs : Rep s) : graphOf (s.allotted b c) = graphOf s :=
  hs.graphOf_congr (rep_allotted hs) rfl rfl

theorem Ready.allotted (h : Ready env s₀ scope s X) : Ready env s₀ scope (s.allotted b c) X where
  persists := h.persists.trans {
    next_le := Nat.le_succ _
    block := fun _ d hd => ⟨d.layout.flags, hd, SameMeta.refl _, fun _ => rfl⟩
    byref := fun _ d hd => Or.inl ⟨d.byref.flags, hd, SameMeta.refl _, fun _ => rfl⟩ }
  rep := rep_allotted h.rep
  counted := by
    rw [Counted, graphOf_allotted h.rep]
    exact h.counted
  positive := by
    rw [graphOf_allotted h.rep]
    exact h.positive

/-- A block that is not live appears. -/
theorem copied_begin {r : Addr} {d : BlockCell} (hrep : Rep (s.setBlock r d))
    (hs : s.blocks r = none) (hl : ¬d.Live) (hheap : d.storage = .heap) :
    Copied env s₀ scope (some r) s (s.setBlock r d) [] [] [] 0 [] 0 where
  rep := hrep
  frame := {
    persists := {
      next_le := le_rfl
      block := fun a c hc => by
        have hne : a ≠ r := fun he => by
          rw [he, hs] at hc
          cases hc
        exact ⟨c.layout.flags, by rw [Mem.setBlock_blocks_ne s d hne, hc]; rfl, SameMeta.refl _,
          fun _ => rfl⟩
      byref := fun _ c hc => Or.inl ⟨c.byref.flags, hc, SameMeta.refl _, fun _ => rfl⟩ }
    mallocs_le := le_rfl
    block_old := fun _ _ => rfl
    block_new := fun a c hsa hta => by
      by_cases hne : a = r
      · subst hne
        rw [Mem.setBlock_blocks_self, Option.some.injEq] at hta
        exact ⟨hta ▸ hheap, fun had => absurd rfl had⟩
      · rw [Mem.setBlock_blocks_ne s d hne, hsa] at hta
        cases hta
    byref_old := fun _ _ => rfl
    byref_new := fun a c hsa hta => by
      rw [Mem.setBlock_byrefs, hsa] at hta
      cases hta
    object := fun o => by simp }
  grows := by
    have hg : graphOf (s.setBlock r d) = graphOf s := by
      rw [graphOf_setBlock_dead s hl]
      exact Graph.erase_of_none (nodeAt_block_none hs)
    rw [hg, ownedRefs, zero_add]
    exact Grows.nil _ _ _ _
  copy := .nil
  made_lt := List.Pairwise.nil
  made_range a ha := by cases ha
  made_all a c hsa hta had := by
    have hne : a ≠ r := fun he => had (by rw [he])
    rw [Mem.setBlock_blocks_ne s d hne, hsa] at hta
    cases hta
  moved_nodup := List.nodup_nil
  moved_iff v := by
    refine ⟨fun h => absurd h List.not_mem_nil, fun h => ?_⟩
    obtain ⟨c, hc, _, hf, p, hp, ht⟩ := h
    rw [Mem.setBlock_byrefs, hc, Option.some.injEq] at ht
    rw [ht] at hf
    exact absurd hf hp
  moved_reached v hv := by cases hv
  mallocs := rfl
  calls := ⟨fun _ k h h' => absurd h' (by simp; omega), fun _ => rfl⟩

/-- The fresh block, before any variable is copied. -/
theorem filling_start (h : Ready env s₀ scope s X)
    (hok : (halfBlock c.layout c.layout.captured).Ok s.next) (hb : c.layout.isa ≠ .mallocBlock) :
    Filling env s₀ scope (s.allotted b c) s.next c.layout
      (history (.block s.next) s.trace ++ blockBirth b s.next c) (s.making b c) [] []
      c.layout.captured where
  copied := ⟨_, _, _, _, copied_begin (rep_making h.rep hok) h.rep.block_next
    (not_live_halfBlock hb) rfl⟩
  cell := Mem.setBlock_blocks_self _ _ _
  birth := by
    show history _ (s.trace ++ blockBirth b s.next c) = _
    rw [history_append, history_blockBirth, if_pos rfl]

/-- The fresh block is no record of the memory before. -/
theorem persists_finish (hrs : s.blocks s.next = none) (h : Persists env (s.allotted b c) t)
    (d : BlockCell) : Persists env s (t.setBlock s.next d) where
  next_le := (Nat.le_succ _).trans h.next_le
  block a c' hc' := by
    have hne : a ≠ s.next := fun he => by
      rw [he, hrs] at hc'
      cases hc'
    rw [Mem.setBlock_blocks_ne t _ hne]
    exact h.block a c' hc'
  byref a c' hc' := by
    rcases h.byref a c' hc' with hstay | ⟨hdst, hf, p, hp, hmove, hcopy⟩
    · exact Or.inl hstay
    · exact Or.inr ⟨hdst, hf, p, (Nat.le_succ _).trans hp, hmove, hcopy⟩

/-- The fresh block is one of the records that copying makes. -/
theorem extends_finish {e : Multiset Ref} (hrs : s.blocks s.next = none)
    (hcs : s.blocks b = some c) (hst : c.storage = .stack) (hlive : (heapBlock c.layout zs).Live)
    (hbirth : history (.block s.next) t.trace =
      history (.block s.next) s.trace ++ blockBirth b s.next c)
    (h : Extends env (some s.next) (s.allotted b c) t e) :
    Extends env none s (t.setBlock s.next (heapBlock c.layout zs)) e where
  persists := persists_finish hrs h.persists _
  mallocs_le := (Nat.le_succ _).trans h.mallocs_le
  block_old a ha := by
    have hne : a ≠ s.next := fun he => by
      subst he
      exact absurd hrs (ha.resolve_right (by simp))
    rw [Mem.setBlock_blocks_ne t _ hne] at ha
    exact (h.block_old a ha).trans (history_allotted_ne (by simp [hne]) b c)
  block_new a d hsa hta := by
    by_cases hne : a = s.next
    · subst hne
      rw [Mem.setBlock_blocks_self, Option.some.injEq] at hta
      subst hta
      refine ⟨rfl, fun _ => ⟨le_rfl, hlive, b, c, hcs, hst, blockDescriptor2_heapBlock _ _, ?_⟩⟩
      rw [blockBirth_heapBlock]
      exact hbirth
    · rw [Mem.setBlock_blocks_ne t _ hne] at hta
      obtain ⟨hheap, hnew⟩ := h.block_new a d hsa hta
      refine ⟨hheap, fun _ => ?_⟩
      obtain ⟨hle, hl, src, b', hb', hst', hdesc, hh⟩ := hnew (by simpa using hne)
      rw [history_allotted_ne (by simp [hne]) b c] at hh
      exact ⟨(Nat.le_succ _).trans hle, hl, src, b', hb', hst', hdesc, hh⟩
  byref_old a ha := (h.byref_old a ha).trans (history_allotted_ne (by simp) b c)
  byref_new a d hsa hta := by
    obtain ⟨hle, hl, v, d', hd', hdst, hf, hmove, hh⟩ := h.byref_new a d hsa hta
    rw [history_allotted_ne (by simp) b c] at hh
    exact ⟨(Nat.le_succ _).trans hle, hl, v, d', hd', hdst, hf, hmove, hh⟩
  object o := by
    have ho := h.object o
    rw [history_allotted_ne (by simp) b c] at ho
    exact ho

/-- The references that the copied variables hold go over to the fresh block,
which has one reference itself. -/
theorem grows_finish {e : Multiset Ref} (hrep : Rep s) (hlt : s.next < t.next)
    (hcell : t.blocks s.next = some (halfBlock c.layout zs)) (hb : c.layout.isa ≠ .mallocBlock)
    (hlive : (heapBlock c.layout zs).Live)
    (h : Grows latched (External s) (graphOf s) (scopeRefs s scope) (graphOf t)
      (ownedRefs zs + scopeRefs t scope) e) :
    Grows latched (External s) (graphOf s) (scopeRefs s scope)
      (graphOf (t.setBlock s.next (heapBlock c.layout zs)))
      ({.block s.next} + scopeRefs t scope) e := by
  have hnone : (graphOf t).node (.block s.next) = none :=
    nodeAt_block_dead hcell (not_live_halfBlock hb)
  have hout : ¬External s (.block s.next) := fun he => by
    rcases he with he | ⟨d, hd, _⟩
    · exact hrep.next_pos.ne' he
    · rw [hrep.block_next] at hd
      cases hd
  have hnode : blockNode (heapBlock c.layout zs) = ⟨1, ownedRefs zs⟩ := by
    show (⟨refcount (heapBlockFlags c.layout.flags), ownedRefs zs⟩ : Node Ref) = _
    rw [heapBlockFlags_refcount]
  have hbuild : Grows latched (External s) (graphOf t) (ownedRefs zs + scopeRefs t scope)
      ((graphOf t).set (.block s.next) ⟨1, ownedRefs zs⟩) (.block s.next ::ₘ scopeRefs t scope)
      0 := Grows.build hnone hout (ownedRefs zs)
  rw [Multiset.singleton_add, graphOf_setBlock_live t hlt hlive, hnode, ← add_zero e]
  exact Grows.trans h hbuild

/-- The fresh block, after all variables are copied. -/
theorem Filling.finish (h : Ready env s₀ scope s X) (hx : x.kind = .block) (hxb : x.value = b)
    (hc₀ : s₀.blocks b = some c) (hst : c.storage = .stack)
    (hmalloc : env.mallocOk s.mallocs = true) (hb : c.layout.isa ≠ .mallocBlock)
    (hok : (heapBlock c.layout zs).Ok s.next)
    (hfill : Filling env s₀ scope (s.allotted b c) s.next c.layout
      (history (.block s.next) s.trace ++ blockBirth b s.next c) t c.layout.captured zs []) :
    CopiedTo env s₀ scope s x s.next (t.setBlock s.next (heapBlock c.layout zs)) := by
  obtain ⟨made, lost, moved, e, hc⟩ := hfill.copied
  have hdead : ¬(halfBlock c.layout (zs ++ [])).Live := not_live_halfBlock hb
  have hlive : (heapBlock c.layout zs).Live := ⟨rfl, rfl, heapBlockFlags_isDeallocating _⟩
  have hlt : s.next < t.next := hc.frame.persists.next_le
  have howned : ownedRefs [{ x with value := s.next }] = {.block s.next} := by
    simp [ownedRefs, Capture.refs, hx]
  have hcs : s.blocks b = some c := h.persists.block_dead hc₀ (BlockCell.not_live_of_stack hst)
  refine ⟨s.next :: made, lost, moved, e, ?_⟩
  exact {
    rep := hc.rep.setBlock hfill.cell hok
    frame := extends_finish h.rep.block_next hcs hst hlive hfill.birth hc.frame
    grows := by
      have hg := hc.grows
      rw [graphOf_allotted h.rep] at hg
      have hcell := hfill.cell
      rw [List.append_nil] at hcell
      rw [howned]
      exact grows_finish h.rep hlt hcell hb hlive hg
    copy := by
      have hself : (t.setBlock s.next (heapBlock c.layout zs)).blocks s.next =
          some ((heapBlock c.layout zs).withFlags (heapBlockFlags c.layout.flags)) :=
        Mem.setBlock_blocks_self _ _ _
      have hcopy := CopyOf.fresh x hx (hxb ▸ hc₀) hst hself (SameMeta.refl _)
        (hc.copy.setBlock_dead hfill.cell hdead) .nil
      rwa [List.append_nil, Nat.add_zero] at hcopy
    made_lt := List.pairwise_cons.2 ⟨fun a ha => (hc.made_range a ha).1, hc.made_lt⟩
    made_range := fun a ha => by
      rcases List.mem_cons.1 ha with rfl | ha
      · exact ⟨le_rfl, hlt⟩
      · exact ⟨(Nat.le_succ _).trans (hc.made_range a ha).1, (hc.made_range a ha).2⟩
    made_all := fun a d hsa hta _ => by
      by_cases hne : a = s.next
      · exact List.mem_cons.2 (Or.inl hne)
      · rw [Mem.setBlock_blocks_ne t _ hne] at hta
        exact List.mem_cons_of_mem _ (hc.made_all a d hsa hta (by simpa using hne))
    moved_nodup := hc.moved_nodup
    moved_iff := hc.moved_iff
    moved_reached := fun v hv =>
      .nested [x] x c v List.mem_cons_self hx (hxb ▸ hc₀) hst (hc.moved_reached v hv)
    mallocs := by
      show t.mallocs = _
      rw [hc.mallocs, List.length_cons, show (s.allotted b c).mallocs = s.mallocs + 1 from rfl]
      omega
    calls := by
      rw [hc.calls]
      refine ⟨fun hk k hl hu => ?_, fun hk k hl hu => hk k ((Nat.le_succ _).trans hl) hu⟩
      by_cases hks : k = s.mallocs
      · rw [hks, hmalloc]
      · exact hk k (Nat.lt_of_le_of_ne hl (Ne.symm hks)) hu }

/-- The memory after `malloc` and the first stores. -/
theorem making_of_no_helper (hd : blockDescriptor2 c.layout = none) :
    (({ s with next := s.next + 1, mallocs := s.mallocs + 1 } : Mem).log
      (.mallocBlock b s.next)).setBlock s.next (halfBlock c.layout c.layout.captured) =
        s.making b c := by
  simp [Mem.making, Mem.allotted, blockBirth, hd, Mem.log, Mem.setBlock]

theorem making_of_helper {desc : List Word} (hd : blockDescriptor2 c.layout = some desc) :
    ((({ s with next := s.next + 1, mallocs := s.mallocs + 1 } : Mem).log
      (.mallocBlock b s.next)).setBlock s.next (halfBlock c.layout c.layout.captured)).log
        (.copyHelper (desc.getD 0 0) s.next) = s.making b c := by
  simp [Mem.making, Mem.allotted, blockBirth, hd, Mem.log, Mem.setBlock]

theorem Filling.ok (hok : c.Ok b) (hst : c.storage = .stack)
    (h : Filling env s₀ scope s r c.layout H t c.layout.captured zs []) :
    zs.map Capture.kind = c.layout.captured.map Capture.kind ∧ (heapBlock c.layout zs).Ok r := by
  obtain ⟨_, _, _, _, hc⟩ := h.copied
  have hkinds := hc.copy.kinds
  have hhalf := halfBlock_ok (r := r) hok hst hkinds
  exact ⟨hkinds, ⟨hhalf.needsFree, hhalf.isGlobal, fun hne => absurd rfl hne, hhalf.plain,
    hhalf.helpers, hhalf.descriptor, hhalf.older⟩⟩

/-- `_Block_call_copy_helper` on the bitwise copy of a stack block. -/
theorem callCopyHelper_spec (h : Ready env s₀ scope s X) (hc : s.blocks b = some c) (hok : c.Ok b)
    (hst : c.storage = .stack)
    (hfields : ∀ x ∈ c.layout.captured, x.kind.flags ≠ none → CopiesField env s₀ scope n x) :
    Outcome env (s.allotted b c)
      (blockCallCopyHelper (copyHelper (blockObjectAssignN env n)) s.next b
      ((({ s with next := s.next + 1, mallocs := s.mallocs + 1 } : Mem).log
        (.mallocBlock b s.next)).setBlock s.next (halfBlock c.layout c.layout.captured)))
      fun _ t => (s.allotted b c).mallocs ≤ t.mallocs ∧
        ∃ zs, Filling env s₀ scope (s.allotted b c) s.next c.layout
          (history (.block s.next) s.trace ++ blockBirth b s.next c) t c.layout.captured zs [] := by
  have hbr : b ≠ s.next := (h.rep.block_lt b c hc).ne
  have hisa : c.layout.isa ≠ .mallocBlock := hok.isa (by rw [hst]; decide)
  have hstart := filling_start (b := b) h (halfBlock_ok hok hst rfl) hisa
  unfold blockCallCopyHelper
  rw [bind_ok (loadBlock_ok (c := c) (by simp [hbr, hc]))]
  cases hd : blockDescriptor2 c.layout with
  | none =>
    have hplain : ∀ x ∈ c.layout.captured, x.kind = .plain := by
      refine hok.helpers ?_
      by_contra hne
      rw [blockDescriptor2, if_neg hne] at hd
      cases hd
    rw [making_of_no_helper hd]
    obtain ⟨made, lost, moved, e, hcopied⟩ := hstart.copied
    refine Or.inr ⟨(), _, rfl, le_rfl, c.layout.captured, ⟨⟨_, _, _, _,
      hcopied.trans (copied_plain hcopied.rep hplain)⟩, ?_, hstart.birth⟩⟩
    rw [hstart.cell, List.nil_append, List.append_nil]
  | some desc =>
    have hflag : c.layout.flags &&& BLOCK_HAS_COPY_DISPOSE ≠ 0 := fun hz => by
      rw [blockDescriptor2, if_pos hz] at hd
      cases hd
    have hlen := hok.descriptor hflag
    have hword : desc[0]? = some (desc.getD 0 0) := by
      rw [blockDescriptor2, if_neg hflag, Option.some.injEq] at hd
      subst hd
      rw [List.getD_eq_getElem?_getD, List.getElem?_eq_getElem (by simp; omega)]
      rfl
    have hb : (s.making b c).blocks b = some c := by
      rw [Mem.making, Mem.setBlock_blocks_ne _ _ hbr]
      exact hc
    simp only
    rw [bind_ok (wordAt_ok hword _), bind_ok (log_apply _ _), making_of_helper hd, copyHelper,
      bind_ok (loadBlock_ok hb)]
    refine (copyFields_spec h.allotted h.rep.block_next hok hst c.layout.captured _ [] [] rfl
      hfields hstart).imp id fun hret => ?_
    obtain ⟨_, t, hrun, zs, hfill, hle⟩ := hret
    exact ⟨(), t, hrun, hle, zs, hfill⟩

/-- `_Block_copy` on a stack block, given that its variables are copied. -/
theorem blockCopyN_stack (hs₀ : Rep s₀) (hc₀ : s₀.blocks b = some c) (hst : c.storage = .stack)
    (hfields : ∀ x ∈ c.layout.captured, x.kind.flags ≠ none → CopiesField env s₀ scope n x) :
    CopiesBlock env s₀ scope n b := by
  intro s X x h hx hxb
  have hok := hs₀.block_ok b c hc₀
  have hdead : ¬c.Live := BlockCell.not_live_of_stack hst
  have hc := h.persists.block_dead hc₀ hdead
  have hbr : b ≠ s.next := (h.rep.block_lt b c hc).ne
  have hisa : c.layout.isa ≠ .mallocBlock := hok.isa (by rw [hst]; decide)
  unfold blockCopyN blockCopyBody
  rw [if_neg (h.rep.ne_null hc), bind_ok (loadBlock_ok hc), if_neg (hok.not_needsFree hst),
    if_neg (hok.not_isGlobal hst)]
  cases hmalloc : env.mallocOk s.mallocs with
  | false =>
    rw [bind_ok (malloc_none hmalloc)]
    exact Or.inr ⟨NULL, _, rfl, _, _, _, _,
      copied_failed h.rep hx (hxb ▸ hc₀) hst hmalloc⟩
  | true =>
    rw [bind_ok (malloc_ok hmalloc)]
    simp only
    rw [bind_ok (log_apply _ _), bind_ok (storeBlock_apply _ _ _)]
    have hcall := callCopyHelper_spec h hc hok hst hfields
    rcases hcall with ⟨herr, k, hk, hfail⟩ | ⟨_, t, hrun, _, zs, hfill⟩
    · exact Or.inl ⟨bind_error herr, k, (Nat.le_succ _).trans hk, hfail⟩
    · have hcell := hfill.cell
      rw [List.append_nil] at hcell
      refine Or.inr ⟨s.next, t.setBlock s.next (heapBlock c.layout zs), ?_,
        hfill.finish h hx hxb hc₀ hst hmalloc hisa (hfill.ok hok hst).2⟩
      exact (bind_ok hrun).trans ((bind_ok (updateBlock_ok hcell _)).trans rfl)

end

/-! ## The recursion -/

section

variable {b : Addr} {c : BlockCell} {w : Multiset Ref}

/-- `_Block_copy` on `NULL` or a global block. -/
theorem copiesBlock_external (hs₀ : Rep s₀) (hext : External s₀ (.block b)) :
    CopiesBlock env s₀ scope n b := by
  intro s X x h hx hxb
  have hshared : ∀ c, s₀.blocks x.value = some c → c.storage ≠ .stack := by
    intro c hc hst
    rw [hxb] at hc
    rcases hext with hnull | ⟨d, hd, hg⟩
    · exact hs₀.ne_null hc hnull
    · rw [hc, Option.some.injEq] at hd
      rw [hd, hg] at hst
      cases hst
  have hext' : External s (.block x.value) := by
    rw [hxb]
    rcases hext with hnull | ⟨d, hd, hg⟩
    · exact Or.inl hnull
    · exact Or.inr ⟨d, h.persists.block_dead hd (BlockCell.not_live_of_global hg), hg⟩
  refine Or.inr ⟨b, s, ?_, [], 0, [], {.block x.value}, ?_⟩
  · unfold blockCopyN blockCopyBody
    rcases hext with rfl | ⟨d, hd, hg⟩
    · rfl
    · have hd' := h.persists.block_dead hd (BlockCell.not_live_of_global hg)
      have hok := hs₀.block_ok b d hd
      have hheap : ¬(d.layout.flags &&& BLOCK_NEEDS_FREE ≠ 0) := fun hne => by
        have hstorage := hok.needsFree.1 hne
        rw [hg] at hstorage
        cases hstorage
      rw [if_neg (h.rep.ne_null hd'), bind_ok (loadBlock_ok hd'), if_neg hheap,
        if_pos (hok.isGlobal.2 hg)]
      rfl
  · subst hxb
    exact copied_external h.rep hx hext' hshared

/-- `_Block_copy` on a heap block. -/
theorem copiesBlock_heap (hc₀ : s₀.blocks b = some c) (hl : c.Live) :
    CopiesBlock env s₀ scope n b := by
  intro s X x h hx hxb
  obtain ⟨w, hw, hm, _⟩ := h.persists.block b c hc₀
  have hlw := (BlockCell.live_withFlags hm).2 hl
  obtain ⟨r, v, hrun, hcount, hmv⟩ := incr_run_views (c.withFlags w).layout.flags
  have hheap := (h.rep.block_ok b _ hw).needsFree.2 hlw.1
  refine Or.inr ⟨b, s.setBlock b ((c.withFlags w).withFlags v), ?_, [], 0, [], 0, ?_⟩
  · unfold blockCopyN blockCopyBody
    rw [if_neg (h.rep.ne_null hw), bind_ok (loadBlock_ok hw), if_pos hheap,
      bind_ok (loopBlockFlags_ok hw _ hrun)]
    rfl
  · subst hxb
    refine copied_heap h.rep hx hw hlw hcount hmv fun d hd hst => ?_
    rw [hc₀, Option.some.injEq] at hd
    rw [← hd, hl.1] at hst
    cases hst

/-- `_Block_copy` on a live block. -/
theorem copiesBlock_of_alive (hs₀ : Rep s₀) (h : Alive s₀ scope b) :
    ∀ n, Nat.succ b ≤ n → CopiesBlock env s₀ scope n b := by
  induction h with
  | global b c hc hg => exact fun n _ => copiesBlock_external hs₀ (Or.inr ⟨c, hc, hg⟩)
  | heap b c hc hl => exact fun n _ => copiesBlock_heap hc hl
  | stack b c hc hst _ hblock hbyref ih =>
    intro n hn
    have hpos : Nat.succ 0 ≤ b := Nat.pos_of_ne_zero (hs₀.ne_null hc)
    obtain ⟨m, rfl⟩ : ∃ m, n = m + 2 := ⟨n - 2, by omega⟩
    refine blockCopyN_stack hs₀ hc hst fun x hx _ => copiesField hs₀ (fun hk => ?_) (hbyref x hx)
    by_cases hnull : x.value = NULL
    · exact copiesBlock_external hs₀ (Or.inl hnull)
    · have holder : Nat.succ x.value ≤ b := (hs₀.block_ok b c hc).older hst x hx hk
      exact ih x hx hk hnull (m + 1) (by omega)

/-- The bound on the depth suffices for a live block. -/
theorem Alive.le_copyFuel (hs : Rep s) (hb : Alive s scope b) : Nat.succ b ≤ copyFuel s := by
  have hlt : Nat.succ b ≤ s.next := by
    cases hb with
    | global _ c hc _ => exact hs.block_lt b c hc
    | heap _ c hc _ => exact hs.block_lt b c hc
    | stack _ c hc _ _ _ _ => exact hs.block_lt b c hc
  exact hlt.trans ((Nat.le_add_right _ 2).trans (Nat.le_mul_of_pos_left _ (Nat.succ_pos _)))

/-- `_Block_copy` on a live block of a memory that is used according to the
ownership discipline. -/
theorem blockCopy_spec (hs : Rep s) (hw : Counted s scope X) (hp : Positive (graphOf s))
    (hb : Alive s scope b) :
    Outcome env s (blockCopy env b s) (CopiedTo env s scope s ⟨.block, b⟩) :=
  copiesBlock_of_alive hs hb (copyFuel s) (hb.le_copyFuel hs) s X ⟨.block, b⟩
    ⟨Persists.refl env s, hs, hw, hp⟩ rfl rfl

/-- `_Block_copy` on a live block when no allocation fails. -/
theorem blockCopy_ok (hs : Rep s) (hw : Counted s scope X) (hp : Positive (graphOf s))
    (hmalloc : ∀ k, env.mallocOk k = true) (hb : Alive s scope b) :
    ∃ c t made moved e, blockCopy env b s = .ok (c, t) ∧
      Copied env s scope none s t [⟨.block, b⟩] [⟨.block, c⟩] made 0 moved e := by
  rcases blockCopy_spec hs hw hp hb with ⟨_, k, _, hfail⟩ | ⟨c, t, hrun, made, lost, moved, e, hc⟩
  · rw [hmalloc] at hfail
    cases hfail
  · obtain rfl : lost = 0 := hc.calls.2 fun k _ _ => hmalloc k
    exact ⟨c, t, made, moved, e, hrun, hc⟩

end

end

end BlocksRuntime
