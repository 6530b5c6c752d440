import BlocksRuntime.Balance
import BlocksRuntime.CopyRenaming
import Mathlib.Data.Fin.VecNotation

/-!
# The order of copies

Copying several live blocks, one `_Block_copy` after the other, leaves the same
memory behind in every order, up to the addresses that `malloc` picks.

* `Corresponds.block_new`, `Corresponds.byref_some` and their companions say
  that the records of the two memories correspond, up to their counts.
* `Corresponds.owns` and `Corresponds.pending` say that the references
  correspond.  The counts then agree by `Grows.count_rename`: which copy moves a
  variable and which one only counts does not matter.
* `EqualUpTo` is equality of the records up to the new addresses.
* `blockCopy_order` is the result.
-/

namespace BlocksRuntime

open Ownership

/-- The memories `t` and `t'`, which grew out of `s`, are equal up to the
addresses of their new records.  They took as many allocations. -/
structure EqualUpTo (s : Mem) (ρ : Equiv.Perm Addr) (t t' : Mem) : Prop where
  old : ∀ a, a < s.next → ρ a = a
  block_old : ∀ a, a < s.next → t'.blocks a = t.blocks a
  block_new : ∀ a, s.next ≤ a → t'.blocks (ρ a) = (t.blocks a).map (BlockCell.rename ρ)
  byref : ∀ a, t'.byrefs (ρ a) = (t.byrefs a).map (ByrefCell.rename ρ)
  mallocs : t'.mallocs = t.mallocs

section

variable {env : Env} {s t t' : Mem} {scope : Finset Addr} {X : Multiset Ref}
  {xs ys ys' : List Capture} {made made' moved moved' : List Addr} {e e' : Multiset Ref}
  {ρ : Equiv.Perm Addr} {a : Addr}

/-! ## One copy -/

theorem owns_live {c : BlockCell} (hs : Rep s) (hc : s.blocks a = some c) (hl : c.Live) :
    (graphOf s).owns (.block a) = ownedRefs c.layout.captured :=
  Graph.owns_of_node (n := blockNode c) (nodeAt_block hc (hs.block_lt a c hc) hl)

theorem owns_dead {c : BlockCell} (hc : s.blocks a = some c) (hl : ¬c.Live) :
    (graphOf s).owns (.block a) = 0 :=
  Graph.owns_of_none (nodeAt_block_dead hc hl)

theorem owns_none (hc : s.blocks a = none) : (graphOf s).owns (.block a) = 0 :=
  Graph.owns_of_none (nodeAt_block_none hc)

theorem count_block {c : BlockCell} (hs : Rep s) (hc : s.blocks a = some c) (hl : c.Live) :
    (graphOf s).node (.block a) ≠ none ∧
      (graphOf s).count (.block a) = refcount c.layout.flags := by
  have hnode : (graphOf s).node (.block a) = some (blockNode c) :=
    nodeAt_block hc (hs.block_lt a c hc) hl
  exact ⟨by simp [hnode], by simp [Graph.count, hnode, blockNode]⟩

theorem count_byref {c : ByrefCell} (hs : Rep s) (hc : s.byrefs a = some c) (hl : c.Live) :
    (graphOf s).node (.byref a) ≠ none ∧ (graphOf s).count (.byref a) = refcount c.byref.flags := by
  have hnode : (graphOf s).node (.byref a) = some (byrefNode c) :=
    nodeAt_byref hc (hs.byref_lt a c hc) hl
  exact ⟨by simp [hnode], by simp [Graph.count, hnode, byrefNode]⟩

/-- A `__block` record that was made is the copy of a variable that moved. -/
theorem CopiedTogether.byref_new (h : CopiedTogether env scope s t xs ys made moved e)
    {c : ByrefCell} (ha : s.byrefs a = none) (hc : t.byrefs a = some c) :
    ∃ v, Moves s t v ∧ s.byrefs v ≠ none ∧ follow t v = a := by
  obtain ⟨_, _, v, b, hb, hst, hf, hmove, _⟩ := h.frame.byref_new a c ha hc
  have hav : a ≠ v := fun he => by
    rw [he, hb] at ha
    cases ha
  exact ⟨v, ⟨b, hb, hst, hf, a, hav, hmove⟩, by simp [hb], follow_of hmove⟩

/-- A variable that was not there holds no reference. -/
theorem CopiedTogether.scopeRef_none (h : CopiedTogether env scope s t xs ys made moved e)
    {v : Addr} (hv : s.byrefs v = none) : scopeRef t v = 0 := by
  cases hc : t.byrefs v with
  | none => exact scopeRef_of_none hc
  | some c =>
    obtain ⟨_, hl, _⟩ := h.frame.byref_new v c hv hc
    have hst : ¬(c.storage = .stack ∧ c.byref.forwarding ≠ v) := fun hst =>
      ByrefCell.not_live_of_stack hst.1 hl
    simp [scopeRef, hc, hst]

/-- What was there before keeps its name. -/
theorem Disciplined.renameRefs_eq (hd : Disciplined s scope X)
    (hold : ∀ b, b < s.next → ρ b = b) {r : Ref} (hr : (graphOf s).node r ≠ none ∨ External s r) :
    renameRefs ρ r = r := by
  rcases hr with hr | hr
  · obtain ⟨n, hn⟩ := Option.ne_none_iff_exists'.1 hr
    cases r with
    | block b =>
      obtain ⟨_, _, hb, _⟩ := nodeAt_block_some hn
      rw [renameRefs_block, hold b hb]
    | byref v =>
      obtain ⟨_, _, hv, _⟩ := nodeAt_byref_some hn
      rw [renameRefs_byref, hold v hv]
    | object o => rfl
  · cases r with
    | block b =>
      rcases hr with rfl | ⟨c, hc, _⟩
      · rw [renameRefs_block, hold NULL hd.rep.next_pos]
      · rw [renameRefs_block, hold b (hd.rep.block_lt b c hc)]
    | byref v => exact hr.elim
    | object o => rfl

theorem map_renameRefs_eq {w : Multiset Ref} (h : ∀ r ∈ w, renameRefs ρ r = r) :
    w.map (renameRefs ρ) = w := by
  rw [Multiset.map_congr rfl h, Multiset.map_id']

section

variable (hρ : Corresponds s t t' ys ys' made made' ρ) (hd : Disciplined s scope X)
  (h : CopiedTogether env scope s t xs ys made moved e)
  (h' : CopiedTogether env scope s t' xs ys' made' moved' e')

/-! ## The records correspond, up to their counts -/

include hρ

/-- What `ρ` takes to an old address is old. -/
theorem Corresponds.eq_of_old (ha : ρ a < s.next) : ρ a = a :=
  ρ.injective (hρ.old _ ha)

include h

/-- A block that was made. -/
theorem Corresponds.block_new {c : BlockCell} (ha : s.blocks a = none) (hc : t.blocks a = some c) :
    ∃ w, t'.blocks (ρ a) = some ((c.rename ρ).withFlags w) ∧ SameMeta w c.layout.flags := by
  obtain ⟨b, zs, w, w', hw, hw', hm⟩ := hρ.block a (h.made_all a c ha hc)
  rw [hc, Option.some.injEq] at hw
  subst hw
  exact ⟨w', hw', hm.symm⟩

include hd h'

/-- Where one copy leaves no block, neither does the other. -/
theorem Corresponds.block_none (ha : t.blocks a = none) : t'.blocks (ρ a) = none := by
  by_contra hne
  obtain ⟨c, hc⟩ := Option.ne_none_iff_exists'.1 hne
  cases hcs : s.blocks (ρ a) with
  | some c₀ =>
    have hold := hρ.eq_of_old (hd.rep.block_lt _ c₀ hcs)
    rw [hold] at hcs
    exact h.frame.persists.block_ne_none (by simp [hcs]) ha
  | none =>
    have hmade := h'.made_all _ c hcs hc
    rw [hρ.made_eq] at hmade
    obtain ⟨b, hb, hba⟩ := List.mem_map.1 hmade
    rw [ρ.injective hba] at hb
    obtain ⟨d, hd⟩ := h.copy.made_block hb
    rw [ha] at hd
    cases hd

/-- A `__block` record. -/
theorem Corresponds.byref_some {c : ByrefCell}
    (hc : t.byrefs a = some c) : ∃ w, t'.byrefs (ρ a) = some ((c.rename ρ).withFlags w) ∧
      SameMeta w c.byref.flags ∧ (¬c.Live → w = c.byref.flags) := by
  have hmoves : ∀ v, Moves s t v ↔ Moves s t' v := fun v => by
    rw [← h.moved_iff, ← h'.moved_iff, h.moves_iff hd h']
  cases hs : s.byrefs a with
  | some c₀ =>
    rw [hρ.old a (hd.rep.byref_lt a c₀ hs)]
    by_cases hm : Moves s t a
    · -- The variable has moved in both copies.
      obtain ⟨_, d, hd₀, _, ht, _⟩ := hm.follow_spec h.frame.persists
      obtain ⟨_, d', hd₀', _, ht', _⟩ := ((hmoves a).1 hm).follow_spec h'.frame.persists
      rw [hd₀, Option.some.injEq] at hd₀'
      subst hd₀'
      rw [hc, Option.some.injEq] at ht
      subst ht
      have hρa := hρ.byref a (by simp [hs])
      refine ⟨d.byref.flags, ?_, SameMeta.refl _, fun _ => rfl⟩
      rw [ht', ← hρa]
      rfl
    · obtain ⟨w, hw, hmeta, hdead⟩ := h.frame.persists.stays hd.rep hs hm
      obtain ⟨w', hw', hmeta', hdead'⟩ :=
        h'.frame.persists.stays hd.rep hs fun hm' => hm ((hmoves a).2 hm')
      rw [hc, Option.some.injEq] at hw
      subst hw
      have hfix : ρ c₀.byref.forwarding = c₀.byref.forwarding :=
        hρ.old _ (hd.rep.forwarding_lt a c₀ hs)
      have hsame : (c₀.withFlags w).rename ρ = c₀.withFlags w := ByrefCell.forward_self hfix.symm
      refine ⟨w', ?_, hmeta'.trans hmeta.symm, fun hl => ?_⟩
      · rw [hw', hsame]
        rfl
      · have hl₀ : ¬c₀.Live := fun hl₀ => hl ((ByrefCell.live_withFlags hmeta).2 hl₀)
        rw [hdead' hl₀]
        exact (hdead hl₀).symm
  | none =>
    obtain ⟨_, hl, _⟩ := h.frame.byref_new a c hs hc
    obtain ⟨v, hm, hv, rfl⟩ := h.byref_new hs hc
    obtain ⟨_, d, hd₀, _, _, w, hcopy, hmeta⟩ := hm.follow_spec h.frame.persists
    obtain ⟨_, d', hd₀', _, _, w', hcopy', hmeta'⟩ :=
      ((hmoves v).1 hm).follow_spec h'.frame.persists
    rw [hd₀, Option.some.injEq] at hd₀'
    subst hd₀'
    rw [hc, Option.some.injEq] at hcopy
    subst hcopy
    refine ⟨w', ?_, hmeta'.trans hmeta.symm, fun hdead => absurd hl hdead⟩
    rw [hρ.byref v hv, hcopy', ← hρ.byref v hv]
    rfl

theorem Corresponds.byref_none (ha : t.byrefs a = none) : t'.byrefs (ρ a) = none := by
  by_contra hne
  obtain ⟨c, hc⟩ := Option.ne_none_iff_exists'.1 hne
  cases hcs : s.byrefs (ρ a) with
  | some c₀ =>
    have hold := hρ.eq_of_old (hd.rep.byref_lt _ c₀ hcs)
    rw [hold] at hcs
    exact h.frame.persists.byref_ne_none (by simp [hcs]) ha
  | none =>
    obtain ⟨v, hm, hv, hva⟩ := h'.byref_new hcs hc
    rw [← hρ.byref v hv] at hva
    have hm' : Moves s t v := (h.moved_iff v).1 ((h.moves_iff hd h' v).1 ((h'.moved_iff v).2 hm))
    obtain ⟨_, _, _, _, _, _, hcopy, _⟩ := hm'.follow_spec h.frame.persists
    rw [ρ.injective hva, ha] at hcopy
    cases hcopy

/-! ## The graphs correspond -/

/-- What the blocks own, after the two copies. -/
theorem Corresponds.owns (r : Ref) :
    (graphOf t').owns (renameRefs ρ r) = ((graphOf t).owns r).map (renameRefs ρ) := by
  cases r with
  | byref v => rw [renameRefs_byref, owns_byref, owns_byref, Multiset.map_zero]
  | object o => rfl
  | block a =>
    rw [renameRefs_block]
    cases hc : t.blocks a with
    | none =>
      rw [owns_none hc, owns_none (hρ.block_none hd h h' hc), Multiset.map_zero]
    | some c =>
      cases hs : s.blocks a with
      | none =>
        obtain ⟨_, hl⟩ := h.frame.block_new a c hs hc
        obtain ⟨w, hw, hm⟩ := hρ.block_new h hs hc
        have hlive : c.Live := (hl (by simp)).2.1
        have hlive' : ((c.rename ρ).withFlags w).Live := (BlockCell.live_withFlags hm).2 hlive
        rw [owns_live h.rep hc hlive, owns_live h'.rep hw hlive', ← ownedRefs_rename]
        rfl
      | some c₀ =>
        rw [hρ.old a (hd.rep.block_lt a c₀ hs)]
        obtain ⟨w, hw, hm, _⟩ := h.frame.persists.block a c₀ hs
        obtain ⟨w', hw', hm', _⟩ := h'.frame.persists.block a c₀ hs
        by_cases hl : c₀.Live
        · rw [owns_live h.rep hw ((BlockCell.live_withFlags hm).2 hl),
            owns_live h'.rep hw' ((BlockCell.live_withFlags hm').2 hl)]
          refine (map_renameRefs_eq fun r hr => hd.renameRefs_eq hρ.old ?_).symm
          refine hd.counted.closed r (Graph.refs_pos_of_owns _ (b := .block a) ?_)
          rwa [owns_live hd.rep hs hl]
        · rw [owns_dead hw fun hlw => hl ((BlockCell.live_withFlags hm).1 hlw),
            owns_dead hw' fun hlw => hl ((BlockCell.live_withFlags hm').1 hlw), Multiset.map_zero]

/-- The reference that a variable in scope holds, after the two copies. -/
theorem Corresponds.scopeRef (v : Addr) :
    scopeRef t' v = (scopeRef t v).map (renameRefs ρ) := by
  cases hs : s.byrefs v with
  | none => rw [h.scopeRef_none hs, h'.scopeRef_none hs, Multiset.map_zero]
  | some c₀ =>
    have hv : ρ v = v := hρ.old v (hd.rep.byref_lt v c₀ hs)
    obtain ⟨c, hc⟩ := Option.ne_none_iff_exists'.1
      (h.frame.persists.byref_ne_none (a := v) (by simp [hs]))
    obtain ⟨w, hw, _⟩ := hρ.byref_some hd h h' hc
    rw [hv] at hw
    have hne : ρ c.byref.forwarding ≠ v ↔ c.byref.forwarding ≠ v := by
      rw [ne_eq, ne_eq, ← ρ.injective.eq_iff (a := c.byref.forwarding), hv]
    have hcond : (c.storage = .stack ∧ ρ c.byref.forwarding ≠ v) ↔
        (c.storage = .stack ∧ c.byref.forwarding ≠ v) := and_congr_right fun _ => hne
    simp only [BlocksRuntime.scopeRef, hw, hc]
    show (if c.storage = .stack ∧ ρ c.byref.forwarding ≠ v then
      ({.byref (ρ c.byref.forwarding)} : Multiset Ref) else 0) = _
    by_cases hst : c.storage = .stack ∧ c.byref.forwarding ≠ v
    · rw [if_pos hst, if_pos (hcond.2 hst), Multiset.map_singleton, renameRefs_byref]
    · rw [if_neg hst, if_neg fun h => hst (hcond.1 h), Multiset.map_zero]

/-- The pending references after the two copies. -/
theorem Corresponds.pending :
    ownedRefs ys' + scopeRefs t' scope + X =
      (ownedRefs ys + scopeRefs t scope + X).map (renameRefs ρ) := by
  have hscope : scopeRefs t' scope = (scopeRefs t scope).map (renameRefs ρ) := by
    rw [scopeRefs, scopeRefs, ← Multiset.coe_mapAddMonoidHom, map_sum]
    exact Finset.sum_congr rfl fun v _ => hρ.scopeRef hd h h' v
  have hX : X.map (renameRefs ρ) = X := map_renameRefs_eq fun r hr =>
    hd.renameRefs_eq hρ.old
      (hd.counted.closed r (Graph.refs_pos_of_mem (Multiset.mem_add.2 (Or.inr hr))))
  rw [Multiset.map_add, Multiset.map_add, hX, hscope, hρ.results, ownedRefs_rename]

/-- The counters after the two copies. -/
theorem Corresponds.count {r : Ref}
    (hr : (graphOf t).node r ≠ none) (hr' : (graphOf t').node (renameRefs ρ r) ≠ none) :
    (graphOf t').count (renameRefs ρ r) = (graphOf t).count r :=
  Grows.count_rename latched_pos (h.grows.frame X) (h'.grows.frame X) hd.counted
    (hρ.owns hd h h') (hρ.pending hd h h') (fun _ hn => hd.renameRefs_eq hρ.old (Or.inl hn)) hr hr'

/-- The flags words of live blocks that correspond. -/
theorem Corresponds.block_flags {c c' : BlockCell}
    (hc : t.blocks a = some c) (hc' : t'.blocks (ρ a) = some c') (hl : c.Live) (hl' : c'.Live)
    (hm : SameMeta c'.layout.flags c.layout.flags) : c'.layout.flags = c.layout.flags := by
  obtain ⟨hnode, hcount⟩ := count_block h.rep hc hl
  obtain ⟨hnode', hcount'⟩ := count_block h'.rep hc' hl'
  refine flags_ext ?_ hm.dealloc hm.high
  rw [← hcount, ← hcount']
  exact hρ.count hd h h' hnode hnode'

/-- The flags words of live `__block` records that correspond. -/
theorem Corresponds.byref_flags {c c' : ByrefCell}
    (hc : t.byrefs a = some c) (hc' : t'.byrefs (ρ a) = some c') (hl : c.Live) (hl' : c'.Live)
    (hm : SameMeta c'.byref.flags c.byref.flags) : c'.byref.flags = c.byref.flags := by
  obtain ⟨hnode, hcount⟩ := count_byref h.rep hc hl
  obtain ⟨hnode', hcount'⟩ := count_byref h'.rep hc' hl'
  refine flags_ext ?_ hm.dealloc hm.high
  rw [← hcount, ← hcount']
  exact hρ.count hd h h' hnode hnode'

/-! ## The result -/

theorem Corresponds.equalUpTo : EqualUpTo s ρ t t' where
  old := hρ.old
  block_old a ha := by
    have hρa := hρ.old a ha
    cases hs : s.blocks a with
    | none =>
      cases hc : t.blocks a with
      | none => rw [← hρa, hρ.block_none hd h h' hc]
      | some c => exact absurd ha (h.made_ge a (h.made_all a c hs hc)).not_gt
    | some c =>
      obtain ⟨w, hw, hm, hdead⟩ := h.frame.persists.block a c hs
      obtain ⟨w', hw', hm', hdead'⟩ := h'.frame.persists.block a c hs
      have hflags : w' = w := by
        by_cases hl : c.Live
        · exact hρ.block_flags hd h h' hw (hρa.symm ▸ hw') ((BlockCell.live_withFlags hm).2 hl)
            ((BlockCell.live_withFlags hm').2 hl) (hm'.trans hm.symm)
        · rw [hdead hl, hdead' hl]
      rw [hw, hw', hflags]
  block_new a ha := by
    cases hc : t.blocks a with
    | none => rw [hρ.block_none hd h h' hc, Option.map_none]
    | some c =>
      have hs : s.blocks a = none := by
        by_contra hne
        obtain ⟨c₀, hc₀⟩ := Option.ne_none_iff_exists'.1 hne
        exact (hd.rep.block_lt a c₀ hc₀).not_ge ha
      obtain ⟨w, hw, hm⟩ := hρ.block_new h hs hc
      obtain ⟨_, hlive⟩ := h.frame.block_new a c hs hc
      have hl : c.Live := (hlive (by simp)).2.1
      have hl' : ((c.rename ρ).withFlags w).Live := (BlockCell.live_withFlags hm).2 hl
      have hflags : w = c.layout.flags := hρ.block_flags hd h h' hc hw hl hl' hm
      rw [hw, hflags, Option.map_some]
      rfl
  byref a := by
    cases hc : t.byrefs a with
    | none => rw [hρ.byref_none hd h h' hc, Option.map_none]
    | some c =>
      obtain ⟨w, hw, hm, hdead⟩ := hρ.byref_some hd h h' hc
      have hflags : w = c.byref.flags := by
        by_cases hl : c.Live
        · have hl' : ((c.rename ρ).withFlags w).Live := (ByrefCell.live_withFlags hm).2 hl
          exact hρ.byref_flags hd h h' hc hw hl hl' hm
        · exact hdead hl
      rw [hw, hflags, Option.map_some]
      rfl
  mallocs := by
    have hmoved : moved'.Perm moved :=
      (List.perm_ext_iff_of_nodup h'.moved_nodup h.moved_nodup).2 (h.moves_iff hd h')
    rw [h.mallocs, h'.mallocs, hmoved.length_eq, hρ.made_eq, List.length_map]

/-- The objects are retained equally often. -/
theorem Corresponds.retained (o : Addr) :
    t'.trace.count (.retainObject o) = t.trace.count (.retainObject o) := by
  have hext : External s (.object o) := trivial
  rw [(h.frame.count_object o).1, (h'.frame.count_object o).1,
    Grows.taken_rename latched_pos (h.grows.frame X) (h'.grows.frame X) hd.counted
      (hρ.owns hd h h') (hρ.pending hd h h') hext rfl]

end

/-- The blocks of a list with their copies. -/
def copyPairs {n : Nat} (bs cs : Fin n → Addr) : List (Capture × Capture) :=
  List.ofFn fun i => (⟨.block, bs i⟩, ⟨.block, cs i⟩)

theorem copyPairs_fst {n : Nat} (bs cs : Fin n → Addr) :
    (copyPairs bs cs).map Prod.fst = (List.ofFn bs).map (Capture.mk .block) := by
  rw [copyPairs, List.map_ofFn, List.map_ofFn]
  rfl

theorem copyPairs_snd {n : Nat} (bs cs : Fin n → Addr) :
    (copyPairs bs cs).map Prod.snd = (List.ofFn cs).map (Capture.mk .block) := by
  rw [copyPairs, List.map_ofFn, List.map_ofFn]
  rfl

/-- Copying a list of live blocks when no allocation fails. -/
theorem mapM_blockCopy_together {n : Nat} (hd : Disciplined s scope X)
    (hmalloc : ∀ k, env.mallocOk k = true) (bs : Fin n → Addr) (hbs : ∀ i, Alive s scope (bs i)) :
    ∃ (cs : Fin n → Addr) (t : Mem) (made moved : List Addr) (e : Multiset Ref),
      (List.ofFn bs).mapM (blockCopy env) s = .ok (List.ofFn cs, t) ∧
        CopiedTogether env scope s t ((copyPairs bs cs).map Prod.fst)
          ((copyPairs bs cs).map Prod.snd) made moved e := by
  have halive : ∀ b ∈ List.ofFn bs, Alive s scope b := by
    intro b hb
    obtain ⟨i, rfl⟩ := List.mem_ofFn.1 hb
    exact hbs i
  obtain ⟨cs, t, made, moved, e, hrun, hc⟩ := mapM_blockCopy_ok hd.rep hmalloc (List.ofFn bs) halive
    ⟨Persists.refl env s, hd.rep, hd.counted, hd.positive⟩
  have hlen : cs.length = n := by
    have hlength := hc.copy.length_eq
    rwa [List.length_map, List.length_map, List.length_ofFn] at hlength
  obtain ⟨f, rfl⟩ : ∃ f : Fin n → Addr, cs = List.ofFn f := by
    subst hlen
    exact ⟨cs.get, (List.ofFn_get cs).symm⟩
  refine ⟨f, t, made, moved, e, hrun, ?_⟩
  rw [copyPairs_fst, copyPairs_snd]
  exact hc.together

/-- The order of copies does not matter. -/
theorem blockCopy_order {n : Nat} (hd : Disciplined s scope X)
    (hmalloc : ∀ k, env.mallocOk k = true) (bs : Fin n → Addr) (hbs : ∀ i, Alive s scope (bs i))
    (σ : Equiv.Perm (Fin n)) :
    ∃ (cs cs' : Fin n → Addr) (t t' : Mem) (ρ : Equiv.Perm Addr),
      (List.ofFn bs).mapM (blockCopy env) s = .ok (List.ofFn cs, t) ∧
      (List.ofFn (bs ∘ σ)).mapM (blockCopy env) s = .ok (List.ofFn cs', t') ∧
      (∀ i, cs' i = ρ (cs (σ i))) ∧ EqualUpTo s ρ t t' ∧
      ∀ o, t'.trace.count (.retainObject o) = t.trace.count (.retainObject o) := by
  obtain ⟨cs, t, made, moved, e, hrun, h⟩ := mapM_blockCopy_together hd hmalloc bs hbs
  obtain ⟨cs', t', made', moved', e', hrun', h'⟩ :=
    mapM_blockCopy_together hd hmalloc (bs ∘ σ) fun i => hbs (σ i)
  -- The second list, put into the order of the first.
  have hperm : (copyPairs (bs ∘ σ) cs').Perm (copyPairs bs (cs' ∘ σ.symm)) := by
    have hcomp := Equiv.Perm.ofFn_comp_perm σ
      fun j => ((⟨.block, bs j⟩, ⟨.block, cs' (σ.symm j)⟩) : Capture × Capture)
    simpa only [copyPairs, Function.comp_def, Equiv.symm_apply_apply] using hcomp
  obtain ⟨made'', h''⟩ := h'.perm hperm
  rw [copyPairs_fst, copyPairs_snd] at h h''
  have halive : AliveCaptures s scope ((List.ofFn bs).map (Capture.mk .block)) := by
    refine ⟨fun x hx _ => ?_, fun x hx hk => ?_⟩
    · obtain ⟨b, hb, rfl⟩ := List.mem_map.1 hx
      obtain ⟨i, rfl⟩ := List.mem_ofFn.1 hb
      exact Or.inr (hbs i)
    · obtain ⟨b, _, rfl⟩ := List.mem_map.1 hx
      rcases hk with hk | hk <;> cases hk
  obtain ⟨ρ, hρ⟩ := h.exists_corresponds hd halive h''
  refine ⟨cs, cs', t, t', ρ, hrun, hrun', fun i => ?_, hρ.equalUpTo hd h h'', hρ.retained hd h h''⟩
  have hresults := hρ.results
  rw [List.map_map, List.map_ofFn, List.map_ofFn] at hresults
  have hi := congrFun (List.ofFn_injective hresults) (σ i)
  simpa [Capture.rename] using hi

end

/-- The two blocks of `nested`, the outer one after the inner one or before. -/
theorem blockCopy_order_nested :
    ∃ (cs cs' : Fin 2 → Addr) (t t' : Mem) (ρ : Equiv.Perm Addr),
      (List.ofFn ![2, 3]).mapM (blockCopy plentiful) nested = .ok (List.ofFn cs, t) ∧
      (List.ofFn (![2, 3] ∘ Equiv.swap 0 1)).mapM (blockCopy plentiful) nested =
        .ok (List.ofFn cs', t') ∧
      (∀ i, cs' i = ρ (cs (Equiv.swap 0 1 i))) ∧ EqualUpTo nested ρ t t' ∧
      ∀ o, t'.trace.count (.retainObject o) = t.trace.count (.retainObject o) := by
  have hinner : Alive nested {3, 2, 1} 2 :=
    (nested_alive.capturedBlock nested_disciplined.rep nested_disciplined.counted (x := ⟨.block, 2⟩)
      (c := ⟨.stack, outerLiteral⟩) rfl (by decide) rfl).resolve_left (by decide)
  exact blockCopy_order nested_disciplined plentiful_mallocOk ![2, 3]
    (Fin.forall_fin_two.2 ⟨hinner, nested_alive⟩) (Equiv.swap 0 1)

end BlocksRuntime
