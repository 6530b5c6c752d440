import BlocksRuntime.Meaning
import BlocksRuntime.ReleaseOrder

/-!
# Copies without the stack

A copied block does not depend on the stack frame it was made in.  After
`_Block_copy`, scopes of `__block` variables may end and the stack may be
overwritten.

* `ReachFrom` is everything that a block reaches, through captured blocks,
  captured variables, forwarding, and the blocks that variables hold.
* `BlockVariables` is the rule for variables of block type: they hold blocks
  that are off the stack.
* `SameOffStack` relates two memories that differ on the stack only.
-/

namespace BlocksRuntime

open Ownership

/-- The block that a variable of block type holds.  The compiler generates
helpers with `BLOCK_FIELD_IS_BLOCK` for these variables. -/
def BlockByref.heldBlock (r : BlockByref) : Option Addr :=
  match r.byref2 with
  | some ⟨.assign field flags, _⟩ =>
    if flags = BLOCK_BYREF_CALLER ||| BLOCK_FIELD_IS_BLOCK ∨
        flags = BLOCK_BYREF_CALLER ||| BLOCK_FIELD_IS_BLOCK ||| BLOCK_FIELD_IS_WEAK then
      some (r.storage.getD field 0)
    else none
  | _ => none

/-- Variables of block type hold blocks that are off the stack. -/
def BlockVariables (s : Mem) (scope : Finset Addr) : Prop :=
  ∀ a c v, s.byrefs a = some c → c.byref.forwarding = a → (c.storage = .stack → a ∈ scope) →
    c.byref.heldBlock = some v → OffStack s v

/-- The blocks in live heap records are off the stack. -/
def HeldOffStack (s : Mem) : Prop :=
  ∀ a c v, s.byrefs a = some c → c.Live → c.byref.heldBlock = some v → OffStack s v

/-- What the block `b` reaches. -/
inductive ReachFrom (s : Mem) (b : Addr) : Ref → Prop where
  | root : ReachFrom s b (.block b)
  | block (a : Addr) (c : BlockCell) (x : Capture) (h : ReachFrom s b (.block a))
      (hc : s.blocks a = some c) (hx : x ∈ c.layout.captured) (hk : x.kind = .block) :
      ReachFrom s b (.block x.value)
  | byref (a : Addr) (c : BlockCell) (x : Capture) (h : ReachFrom s b (.block a))
      (hc : s.blocks a = some c) (hx : x ∈ c.layout.captured) (hk : x.kind.isByref) :
      ReachFrom s b (.byref x.value)
  | forward (a : Addr) (c : ByrefCell) (h : ReachFrom s b (.byref a)) (hc : s.byrefs a = some c) :
      ReachFrom s b (.byref c.byref.forwarding)
  | held (a : Addr) (c : ByrefCell) (v : Addr) (h : ReachFrom s b (.byref a))
      (hc : s.byrefs a = some c) (hv : c.byref.heldBlock = some v) : ReachFrom s b (.block v)

/-- `NULL`, a global block, a live heap block, or a live heap record. -/
def OffStackRef (s : Mem) : Ref → Prop
  | .block a => OffStack s a
  | .byref a => ∃ c, s.byrefs a = some c ∧ c.Live
  | .object _ => True

/-- Two memories with the same records off the stack. -/
structure SameOffStack (s t : Mem) : Prop where
  null : t.blocks NULL = none
  block : ∀ a c, s.blocks a = some c → c.storage ≠ .stack → t.blocks a = some c
  byref : ∀ a c, s.byrefs a = some c → c.storage ≠ .stack → t.byrefs a = some c

section

variable {env : Env} {s t u : Mem} {scope : Finset Addr} {X : Multiset Ref} {b : Addr}
  {c : BlockCell} {x : Capture}

/-! ## What is off the stack stays there -/

theorem OffStack.not_stack (h : OffStack s b) (hs : Rep s) (hc : s.blocks b = some c) :
    c.storage = .global ∨ c.Live := by
  rcases h with hnull | ⟨d, hd, hcase⟩
  · exact absurd hnull (hs.ne_null hc)
  · rw [hc, Option.some.injEq] at hd
    exact hd ▸ hcase

/-- The variables that a block off the stack captures have live records. -/
theorem OffStack.capturedByref (hs : Rep s) (hw : Counted s scope X) (h : OffStack s b)
    (hc : s.blocks b = some c) (hx : x ∈ c.layout.captured) (hk : x.kind.isByref) :
    ∃ d, s.byrefs x.value = some d ∧ d.Live := by
  rcases h.not_stack hs hc with hg | hl
  · exact absurd hk (hs.global_plain hc hg hx).2
  · exact hw.owned_byref hs hc hl hx hk

/-- Everything that a block off the stack reaches is off the stack, also after
the stack was overwritten. -/
theorem offStack_reachFrom (hs : Rep s) (hw : Counted s scope X) (hv : HeldOffStack s)
    (hsame : SameOffStack s t) (hb : OffStack s b) {r : Ref}
    (h : ReachFrom t b r) : OffStackRef s r := by
  have hblock : ∀ {a c}, OffStack s a → t.blocks a = some c → s.blocks a = some c := by
    intro a c ha hc
    rcases ha with ha | ⟨d, hd, hcase⟩
    · rw [ha, hsame.null] at hc
      cases hc
    · have hst : d.storage ≠ .stack := by
        rcases hcase with hg | hl
        · rw [hg]
          decide
        · rw [hl.1]
          decide
      rw [hsame.block a d hd hst] at hc
      rw [hd, hc]
  have hbyref : ∀ {a c}, OffStackRef s (.byref a) → t.byrefs a = some c →
      s.byrefs a = some c ∧ c.Live := by
    intro a c ha hc
    obtain ⟨d, hd, hl⟩ := ha
    rw [hsame.byref a d hd (by rw [hl.1]; decide), Option.some.injEq] at hc
    exact hc ▸ ⟨hd, hl⟩
  induction h with
  | root => exact hb
  | block a c x _ hc hx hk ih => exact OffStack.captured hs hw ih (hblock ih hc) hx hk
  | byref a c x _ hc hx hk ih => exact OffStack.capturedByref hs hw ih (hblock ih hc) hx hk
  | forward a c _ hc ih =>
    obtain ⟨hc', hl⟩ := hbyref ih hc
    rw [(hs.byref_ok a c hc').heap hl.1]
    exact ih
  | held a c v _ hc hheld ih =>
    obtain ⟨hc', hl⟩ := hbyref ih hc
    exact hv a c v hc' hl hheld

/-- A block off the stack denotes the same after the stack was overwritten. -/
theorem observe_sameOffStack (hs : Rep s) (hw : Counted s scope X) (hsame : SameOffStack s t)
    (p : List Nat) :
    ∀ b, OffStack s b → observe t b p = observe s b p := by
  have hcell : ∀ b, OffStack s b → t.blocks b = s.blocks b := by
    intro b hb
    rcases hb with hb | ⟨d, hd, hcase⟩
    · rw [hb, hsame.null, hs.block_null]
    · have hst : d.storage ≠ .stack := by
        rcases hcase with hg | hl
        · rw [hg]
          decide
        · rw [hl.1]
          decide
      rw [hsame.block b d hd hst, hd]
  induction p with
  | nil =>
    intro b hb
    show blockLabel t b = blockLabel s b
    rw [blockLabel, blockLabel, hcell b hb]
    by_cases hn : b = NULL
    · rw [if_pos hn, if_pos hn]
    · rw [if_neg hn, if_neg hn]
      cases hc : s.blocks b with
      | none => rfl
      | some c =>
        have hlabels : c.layout.captured.map (captureLabel t) =
            c.layout.captured.map (captureLabel s) := by
          refine List.map_congr_left fun x hx => ?_
          have hvar : x.kind.isByref → follow t x.value = follow s x.value ∧
              contents t (follow t x.value) = contents s (follow s x.value) := by
            intro hk
            obtain ⟨d, hd, hl⟩ := hb.capturedByref hs hw hc hx hk
            have hd' := hsame.byref _ d hd (by rw [hl.1]; decide)
            have hf := (hs.byref_ok _ d hd).heap hl.1
            rw [follow_of hd, follow_of hd', hf, contents_of hd, contents_of hd']
            exact ⟨rfl, rfl⟩
          exact captureLabel_congr hvar
        simp only [Option.map_some, hlabels]
  | cons i p ih =>
    intro b hb
    rw [observe, observe, blockAt, blockAt, blockIn, blockIn, hcell b hb, ← blockIn]
    cases ha : blockIn s b i with
    | none => rfl
    | some a =>
      cases hc : s.blocks b with
      | none =>
        rw [blockIn, hc] at ha
        cases ha
      | some c =>
        obtain ⟨x, hx, _, hk, rfl⟩ := blockIn_some hc ha
        exact ih x.value (hb.captured hs hw hc hx hk)

theorem OffStack.sameOffStack (hsame : SameOffStack s t) (h : OffStack s b) : OffStack t b := by
  rcases h with hnull | ⟨c, hc, hcase⟩
  · exact Or.inl hnull
  · refine Or.inr ⟨c, hsame.block b c hc ?_, hcase⟩
    rcases hcase with hg | hl
    · rw [hg]
      decide
    · rw [hl.1]
      decide

theorem OffStackRef.sameOffStack (hsame : SameOffStack s t) {r : Ref} (h : OffStackRef s r) :
    OffStackRef t r := by
  cases r with
  | block a => exact OffStack.sameOffStack hsame h
  | byref a =>
    obtain ⟨c, hc, hl⟩ := h
    exact ⟨c, hsame.byref a c hc (by rw [hl.1]; decide), hl⟩
  | object o => trivial

/-! ## The rule for variables of block type is kept -/

theorem OffStack.persists (h : OffStack s b) (hp : Persists env s t) : OffStack t b := by
  rcases h with hnull | ⟨c, hc, hg | hl⟩
  · exact Or.inl hnull
  · exact Or.inr ⟨c, hp.block_dead hc (BlockCell.not_live_of_global hg), Or.inl hg⟩
  · obtain ⟨w, hw, hm, _⟩ := hp.block b c hc
    exact Or.inr ⟨_, hw, Or.inr ((BlockCell.live_withFlags hm).2 hl)⟩

/-- Releasing variables frees no block. -/
theorem OffStack.released {w : Multiset Ref} (h : OffStack s b) (hs : Rep s) (hr : Released s w t)
    (hw : ∀ r ∈ w, ∃ a, r = .byref a) : OffStack t b := by
  obtain ⟨f, hd, hsh⟩ := hr
  rcases h with hnull | ⟨c, hc, hg | hl⟩
  · exact Or.inl hnull
  · exact Or.inr ⟨c, hsh.block_dead hc (BlockCell.not_live_of_global hg), Or.inl hg⟩
  · have hnode := hd.node_outside (P := fun r => ∃ a, r = .byref a) (a := .block b) hw
      (fun r n hr hn c hc => by
        obtain ⟨a, rfl⟩ := hr
        obtain ⟨_, _, _, _, rfl⟩ := nodeAt_byref_some hn
        exact absurd hc (Multiset.notMem_zero c)) (by simp)
    rw [graphOf_node, graphOf_node, nodeAt_block hc (hs.block_lt b c hc) hl] at hnode
    obtain ⟨d, hd, _, hdl, _⟩ := nodeAt_block_some hnode
    exact Or.inr ⟨d, hd, Or.inr hdl⟩

/-- A variable that a live block reaches is live. -/
theorem Reaches.aliveByref (hs : Rep s) (hw : Counted s scope X) {xs : List Capture} {v : Addr}
    (h : Reaches s xs v) (hblock : ∀ x ∈ xs, x.kind = .block → AliveOrNull s scope x.value)
    (hbyref : ∀ x ∈ xs, x.kind.isByref → AliveByref s scope x.value) : AliveByref s scope v := by
  induction h with
  | here xs x hmem hx => exact hbyref x hmem hx
  | nested xs x c v hmem hx hc hst _ ih =>
    have halive := (hblock x hmem hx).resolve_left (hs.ne_null hc)
    exact ih (fun y hy hk => halive.capturedBlock hs hw hc hy hk)
      (fun y hy hk => halive.capturedByref hs hw hc hy hk)

/-- The heap copy of a variable holds the block that the variable held. -/
theorem heldBlock_heapByref (env : Env) {v : Addr} (p : Addr) {c : ByrefCell} (hok : c.Ok v) :
    (heapByref env c.byref p).byref.heldBlock = c.byref.heldBlock := by
  unfold BlockByref.heldBlock
  show (match c.byref.byref2 with
    | some ⟨.assign field flags, _⟩ =>
      if flags = BLOCK_BYREF_CALLER ||| BLOCK_FIELD_IS_BLOCK ∨
          flags = BLOCK_BYREF_CALLER ||| BLOCK_FIELD_IS_BLOCK ||| BLOCK_FIELD_IS_WEAK then
        some ((byrefStorage env c.byref).getD field 0)
      else none
    | _ => none) = _
  cases hh : c.byref.byref2 with
  | none => rfl
  | some h =>
    have hfield := byrefStorage_field env hok hh
    obtain ⟨keep, destroy⟩ := h
    cases keep with
    | assign field flags =>
      simp only [ByrefKeep.field] at hfield
      simp only [hfield]
    | copy field => rfl

/-- The rule for variables of block type holds of the heap records after a
copy. -/
theorem heldOffStack_copied {xs ys : List Capture} {made : List Addr} {lost : Nat}
    {moved : List Addr} {e : Multiset Ref} (hs : Rep s) (hv : BlockVariables s scope)
    (hc : Copied env s scope none s t xs ys made lost moved e)
    (hreach : ∀ v ∈ moved, AliveByref s scope v) : HeldOffStack t := by
  intro a c v hca hl hheld
  refine OffStack.persists (s := s) ?_ hc.frame.persists
  cases hsa : s.byrefs a with
  | some c₀ =>
    rcases hc.frame.persists.byref a c₀ hsa with ⟨w, hw, hm, _⟩ | ⟨hst, _, p, _, hp, _⟩
    · -- The record was there, perhaps with another count.
      rw [hca, Option.some.injEq] at hw
      subst hw
      have hheap : c₀.storage = .heap := hl.1
      refine hv a c₀ v hsa ((hs.byref_ok a c₀ hsa).heap hheap) (fun hst => ?_) hheld
      rw [hheap] at hst
      cases hst
    · rw [hca, Option.some.injEq] at hp
      rw [hp] at hl
      exact absurd hl (ByrefCell.not_live_of_stack hst)
  | none =>
    -- The record is the copy of a variable that was in scope.
    obtain ⟨_, _, x, b, hb, hst, hf, hx, _⟩ := hc.frame.byref_new a c hsa hca
    have hax : a ≠ x := by
      intro h
      rw [h, hb] at hsa
      cases hsa
    have hmoved : x ∈ moved := (hc.moved_iff x).2 ⟨b, hb, hst, hf, a, hax, hx⟩
    obtain ⟨b', hb', hscope, _⟩ := hreach x hmoved
    rw [hb, Option.some.injEq] at hb'
    subst hb'
    obtain ⟨w, hw, _⟩ := hc.frame.persists.heapCopyAt_of_move hb hst hf hsa hx
    rw [hca, Option.some.injEq] at hw
    refine hv x b v hb hf hscope ?_
    rw [hw] at hheld
    rw [← heldBlock_heapByref env a (hs.byref_ok x b hb)]
    exact hheld

theorem HeldOffStack.released {w : Multiset Ref} (h : HeldOffStack s) (hs : Rep s)
    (hr : Released s w t) (hw : ∀ r ∈ w, ∃ a, r = .byref a) : HeldOffStack t := by
  intro a c v hc hl hv
  obtain ⟨f, _, hsh⟩ := id hr
  obtain ⟨d, w', hd, rfl, hm, _⟩ := hsh.byref_some hc
  exact (h a d v hd ((ByrefCell.live_withFlags hm).1 hl) hv).released hs hr hw

/-! ## Ends of scopes -/

theorem clients_endScope (vs : List (Addr × Flags)) :
    ((vs.map fun v => GiveUp.endScope v.1 v.2).map GiveUp.client).sum = 0 := by
  induction vs with
  | nil => rfl
  | cons v vs ih => rw [List.map_cons, List.map_cons, List.sum_cons, ih, GiveUp.client, add_zero]

theorem variables_endScope (vs : List (Addr × Flags)) :
    ((vs.map fun v => GiveUp.endScope v.1 v.2).map GiveUp.variable).sum =
      (vs.map Prod.fst : Multiset Addr) := by
  induction vs with
  | nil => rfl
  | cons v vs ih =>
    rw [List.map_cons, List.map_cons, List.sum_cons, ih, GiveUp.variable, List.map_cons,
      Multiset.singleton_add, Multiset.cons_coe]

/-- The end of a scope gives up references to records only. -/
theorem refs_endScope (s : Mem) (vs : List (Addr × Flags)) :
    ∀ r ∈ ((vs.map fun v => GiveUp.endScope v.1 v.2).map (GiveUp.ref s)).sum,
      ∃ a, r = .byref a := by
  induction vs with
  | nil => exact fun r hr => absurd hr (Multiset.notMem_zero r)
  | cons v vs ih =>
    intro r hr
    rw [List.map_cons, List.map_cons, List.sum_cons, Multiset.mem_add] at hr
    rcases hr with hr | hr
    · rw [GiveUp.ref, scopeRef] at hr
      cases hc : s.byrefs v.1 with
      | none => simp [hc] at hr
      | some c =>
        simp only [hc] at hr
        split at hr
        · exact ⟨_, Multiset.mem_singleton.1 hr⟩
        · exact absurd hr (Multiset.notMem_zero r)
    · exact ih r hr

/-! ## The result -/

/-- A copied block does not depend on the stack.  After `_Block_copy`, the end
of any scopes and any change of the stack, everything that the copy reaches is
off the stack, and denotes what it denoted before the change. -/
theorem blockCopy_stackFree (hd : Disciplined s scope X) (hv : BlockVariables s scope)
    (hmalloc : ∀ k, env.mallocOk k = true) (hb : Alive s scope b) (vs : List (Addr × Flags))
    (hnodup : (vs.map Prod.fst).Nodup)
    (hvs : ∀ v ∈ vs, v.1 ∈ scope ∧ v.2 ∈ scopeExitFlags ∧
      ∃ c, s.byrefs v.1 = some c ∧ c.storage = .stack) :
    ∃ c t u, blockCopy env b s = .ok (c, t) ∧
      giveUpAll (vs.map fun v => .endScope v.1 v.2) t = .ok ((), u) ∧
      ∀ u', SameOffStack u u' →
        (∀ r, ReachFrom u' c r → OffStackRef u' r) ∧
        ∀ a, ReachFrom u' c (.block a) → ∀ p, observe u' a p = observe u a p := by
  obtain ⟨c, t, made, moved, e, hrun, hc⟩ := blockCopy_ok hd.rep hd.counted hd.positive hmalloc hb
  have hcounted := hc.counted hd.counted
  have hreach : ∀ v ∈ moved, AliveByref s scope v := by
    intro v hv
    refine (hc.moved_reached v hv).aliveByref hd.rep hd.counted (fun x hx _ => ?_) fun x hx hk => ?_
    · rw [List.mem_singleton.1 hx]
      exact Or.inr hb
    · rw [List.mem_singleton.1 hx] at hk
      rcases hk with hk | hk <;> cases hk
  have houtstanding : Outstanding t scope (ownedRefs [⟨.block, c⟩] + X)
      (vs.map fun v => .endScope v.1 v.2) := by
    refine ⟨?_, ?_, fun v flags hv => ?_⟩
    · rw [clients_endScope]
      exact Multiset.zero_le _
    · rw [variables_endScope]
      exact Multiset.coe_nodup.2 hnodup
    · obtain ⟨v', hv', he⟩ := List.mem_map.1 hv
      obtain ⟨rfl, rfl⟩ := GiveUp.endScope.inj he
      obtain ⟨hin, hfl, d, hdv, hst⟩ := hvs v' hv'
      refine ⟨hin, hfl, ?_⟩
      rcases hc.frame.persists.byref_stack hdv hst with hstay | ⟨_, p, _, hp, _⟩
      · exact ⟨d, hstay, hst⟩
      · exact ⟨_, hp, hst⟩
  obtain ⟨u, scope', w', hu, hrel, hcu, hw'⟩ :=
    giveUpAll_spec _ t scope _ hc.rep hcounted houtstanding
  rw [clients_endScope, zero_add] at hw'
  have hbyrefs := refs_endScope t vs
  have hheld := (heldOffStack_copied hd.rep hv hc hreach).released hc.rep hrel hbyrefs
  have hoff : OffStack u c := hcu.offStack (by rw [← hw']; simp [ownedRefs, Capture.refs])
  have hrepu := hrel.rep hc.rep
  refine ⟨c, t, u, hrun, hu, fun u' hsame => ⟨fun r hr => ?_, fun a ha p => ?_⟩⟩
  · exact (offStack_reachFrom hrepu hcu hheld hsame hoff hr).sameOffStack hsame
  · exact observe_sameOffStack hrepu hcu hsame p a
      (offStack_reachFrom hrepu hcu hheld hsame hoff ha)

end

theorem blockCopy_stackFree_nested :
    ∃ c t u, blockCopy plentiful 3 nested = .ok (c, t) ∧
      giveUpAll [.endScope 1 BLOCK_FIELD_IS_BYREF] t = .ok ((), u) ∧
      ∀ u', SameOffStack u u' →
        (∀ r, ReachFrom u' c r → OffStackRef u' r) ∧
        ∀ a, ReachFrom u' c (.block a) → ∀ p, observe u' a p = observe u a p := by
  refine blockCopy_stackFree nested_disciplined ?_ plentiful_mallocOk nested_alive
    [(1, BLOCK_FIELD_IS_BYREF)] (by decide) ?_
  · intro a c v hc _ _ hheld
    rcases Mem.newByref_cases hc with ⟨_, rfl⟩ | hc
    · cases hheld
    · cases hc
  · intro v hv
    rw [List.mem_singleton.1 hv]
    exact ⟨by decide, by decide, _, rfl, rfl⟩

end BlocksRuntime
