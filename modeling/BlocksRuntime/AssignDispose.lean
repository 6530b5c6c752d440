import BlocksRuntime.OwnershipCount
import BlocksRuntime.Ownership.Undo
import BlocksRuntime.StackFree
import Mathlib.Algebra.BigOperators.Group.Finset.Piecewise

/-!
# Dispose undoes assign

`_Block_object_assign` followed by `_Block_object_dispose` of what was stored,
with the same flags.

* Only the bits of `BLOCK_ALL_COPY_DISPOSE_FLAGS` matter to the two switches, so
  a flags word names one of the documented combinations or none
  (`documentedFlags`).
* `Restored` says what is left of the assignment: the variables that it moved,
  each with a heap copy whose only reference is that of its scope.
* `Copied.undoable` makes the copy and the release an instance of
  `Ownership.Undoable`, and `Copied.restored` reads the records off the graph.
* `dispose_undoes_assign` is the result, for every flags word.
-/

namespace BlocksRuntime

open Ownership

/-! ## Flags words -/

/-- The combinations that `_Block_object_assign` and `_Block_object_dispose`
handle. -/
def documentedFlags : List Flags :=
  [BLOCK_FIELD_IS_OBJECT, BLOCK_FIELD_IS_BLOCK, BLOCK_FIELD_IS_BYREF,
    BLOCK_FIELD_IS_BYREF ||| BLOCK_FIELD_IS_WEAK] ++ byrefHelperFlags

theorem and_all_copy_dispose (flags : Flags) :
    flags &&& BLOCK_ALL_COPY_DISPOSE_FLAGS &&& BLOCK_ALL_COPY_DISPOSE_FLAGS =
      flags &&& BLOCK_ALL_COPY_DISPOSE_FLAGS := by
  rw [BitVec.and_assoc, BitVec.and_self]

/-- The other bits of the flags word do not matter. -/
theorem blockObjectAssign_masked (env : Env) (object : Addr) (flags : Flags) :
    blockObjectAssign env object flags =
      blockObjectAssign env object (flags &&& BLOCK_ALL_COPY_DISPOSE_FLAGS) := by
  unfold blockObjectAssign
  simp only [blockObjectAssignN_succ, blockObjectAssignBody, and_all_copy_dispose]

theorem blockObjectDispose_masked (object : Addr) (flags : Flags) :
    blockObjectDispose object flags =
      blockObjectDispose object (flags &&& BLOCK_ALL_COPY_DISPOSE_FLAGS) := by
  unfold blockObjectDispose
  simp only [blockObjectDisposeN_succ, blockObjectDisposeBody, and_all_copy_dispose]

theorem FieldKind.flags_documented {k : FieldKind} {flags : Flags} (h : k.flags = some flags) :
    flags ∈ documentedFlags := by
  cases k <;> cases h <;> decide

/-- A flags word asks for what a block helper passes, for what the helper of a
`__block` record passes, or for nothing. -/
theorem flags_cases (kind : Flags) :
    (∃ k : FieldKind, k.flags = some kind) ∨ kind ∈ byrefHelperFlags ∨
      kind ∉ documentedFlags := by
  by_cases h : kind ∈ documentedFlags
  · simp only [documentedFlags, List.cons_append, List.nil_append, List.mem_cons] at h
    rcases h with rfl | rfl | rfl | rfl | h
    · exact Or.inl ⟨.object, rfl⟩
    · exact Or.inl ⟨.block, rfl⟩
    · exact Or.inl ⟨.byref, rfl⟩
    · exact Or.inl ⟨.weakByref, rfl⟩
    · exact Or.inr (Or.inl h)
  · exact Or.inr (Or.inr h)

theorem ne_of_undocumented {kind flags : Flags} (h : kind ∉ documentedFlags)
    (hflags : flags ∈ documentedFlags) : ¬kind = flags := fun he => h (he ▸ hflags)

/-- For any other combination `*dest` is not written. -/
theorem blockObjectAssign_undocumented (env : Env) (object : Addr) {flags : Flags}
    (h : flags &&& BLOCK_ALL_COPY_DISPOSE_FLAGS ∉ documentedFlags) (s : Mem) :
    blockObjectAssign env object flags s = .ok (none, s) := by
  have hne := fun f => @ne_of_undocumented _ f h
  unfold blockObjectAssign
  rw [blockObjectAssignN_succ, blockObjectAssignBody, if_neg (hne _ (by decide)),
    if_neg (hne _ (by decide)), if_neg (not_or.2 ⟨hne _ (by decide), hne _ (by decide)⟩),
    if_neg (not_or.2 ⟨hne _ (by decide), hne _ (by decide)⟩),
    if_neg (not_or.2 ⟨hne _ (by decide), hne _ (by decide)⟩)]
  rfl

theorem blockObjectDispose_undocumented (object : Addr) {flags : Flags}
    (h : flags &&& BLOCK_ALL_COPY_DISPOSE_FLAGS ∉ documentedFlags) (s : Mem) :
    blockObjectDispose object flags s = .ok ((), s) := by
  have hne := fun f => @ne_of_undocumented _ f h
  unfold blockObjectDispose
  rw [blockObjectDisposeN_succ, blockObjectDisposeBody,
    if_neg (not_or.2 ⟨hne _ (by decide), hne _ (by decide)⟩), if_neg (hne _ (by decide)),
    if_neg (hne _ (by decide))]
  rfl

/-- The flags of the helpers of `__block` records store the object as it is. -/
theorem blockObjectAssign_caller (env : Env) (object : Addr) {flags : Flags}
    (h : flags &&& BLOCK_ALL_COPY_DISPOSE_FLAGS ∈ byrefHelperFlags) (s : Mem) :
    blockObjectAssign env object flags s = .ok (some object, s) := by
  rw [blockObjectAssign_masked]
  unfold blockObjectAssign
  rw [blockObjectAssignN_succ, blockObjectAssignBody_caller _ _ _ _ h]
  rfl

theorem blockObjectDispose_caller (object : Addr) {flags : Flags}
    (h : flags &&& BLOCK_ALL_COPY_DISPOSE_FLAGS ∈ byrefHelperFlags) (s : Mem) :
    blockObjectDispose object flags s = .ok ((), s) := by
  rw [blockObjectDispose_masked]
  unfold blockObjectDispose
  rw [blockObjectDisposeN_succ, blockObjectDisposeBody_caller _ _ _ _ h]
  rfl

/-! ## What is left of an assignment -/

/-- No counter is latched in `t` that was not latched in `s`. -/
def LatchesNothing (s t : Mem) : Prop :=
  ∀ r v, heapFlags t r = some v → refcount v = latched → heapFlags s r = some v

/-- The variable `v` is in scope and has moved to `h`, and the reference of the
scope is the only one to its heap copy. -/
structure LeftMoved (env : Env) (scope : Finset Addr) (s u : Mem) (v : Addr) (c : ByrefCell)
    (h : Addr) : Prop where
  in_scope : v ∈ scope
  fresh : s.next ≤ h
  variable_eq : u.byrefs v = some (c.forward h)
  owned : scopeRef u v = {.byref h}
  copy : ∃ w, u.byrefs h = some ((heapByref env c.byref h).withFlags w) ∧
    SameMeta w (heapByrefFlags c.byref.flags) ∧ refcount w = 1

/-- The memory `u` after an assignment that led from `s` to `t` was undone. -/
structure Restored (env : Env) (scope : Finset Addr) (X : Multiset Ref) (s t u : Mem) :
    Prop where
  disciplined : Disciplined u scope X
  /-- The blocks are what they were: the old ones by flags word and contents, and
  there is no other. -/
  blocks : u.blocks = s.blocks
  byref : ∀ a c, s.byrefs a = some c → ¬Moves s t a → u.byrefs a = some c
  moved : ∀ v c, s.byrefs v = some c → Moves s t v → ∃ h, LeftMoved env scope s u v c h
  byref_new : ∀ a d, s.byrefs a = none → u.byrefs a = some d →
    ∃ v c, s.byrefs v = some c ∧ Moves s t v ∧ LeftMoved env scope s u v c a
  object : ∀ o, ∃ k, history (.object o) u.trace = history (.object o) s.trace ++
    List.replicate k (.retainObject o) ++ List.replicate k (.releaseObject o)

/-- The heap copies of the variables `moved`. -/
def movedRefs (t : Mem) (moved : List Addr) : Multiset Ref :=
  (moved.map fun v => Ref.byref (follow t v) : List Ref)

section

variable {env : Env} {s t u : Mem} {scope : Finset Addr} {X : Multiset Ref}
  {xs ys : List Capture} {made moved : List Addr} {lost : Nat} {e : Multiset Ref}

theorem Restored.refl (env : Env) (hd : Disciplined s scope X) :
    Restored env scope X s s s where
  disciplined := hd
  blocks := rfl
  byref _ _ hc _ := hc
  moved v c hc hm := by
    obtain ⟨d, hd', _, hf, h, hne, ht⟩ := hm
    rw [hd', Option.some.injEq] at ht
    rw [ht] at hf
    exact absurd hf hne
  byref_new a d hs hu := by
    rw [hs] at hu
    cases hu
  object o := ⟨0, by simp⟩

/-! ## The references of the variables that moved -/

/-- A variable that moved has its copy at a fresh address. -/
theorem Moves.copy (hp : Persists env s t) {v : Addr} {c : ByrefCell}
    (hc : s.byrefs v = some c) (hm : Moves s t v) :
    c.storage = .stack ∧ c.byref.forwarding = v ∧
      ∃ h, s.next ≤ h ∧ t.byrefs v = some (c.forward h) ∧ HeapCopyAt env t c h := by
  obtain ⟨c', hc', hst, hf, p, hpv, ht⟩ := hm
  obtain rfl : c' = c := Option.some.inj (hc'.symm.trans hc)
  rcases hp.byref_stack hc hst with hstay | ⟨_, h, hle, hmove, hcopy⟩
  · rw [hstay, Option.some.injEq] at ht
    rw [ht] at hf
    exact absurd hf hpv
  · exact ⟨hst, hf, h, hle, hmove, hcopy⟩

theorem scopeRef_heap {a : Addr} {d : ByrefCell} (hd : s.byrefs a = some d)
    (hst : d.storage ≠ .stack) : scopeRef s a = 0 := by
  simp [scopeRef, hd, hst]

/-- A variable that did not move holds what it held. -/
theorem Copied.scopeRef_eq (hs : Rep s) (hc : Copied env s scope none s t xs ys made lost moved e)
    {v : Addr} (hv : v ∉ moved) : scopeRef t v = scopeRef s v := by
  cases hsv : s.byrefs v with
  | none =>
    rw [scopeRef_of_none hsv]
    cases htv : t.byrefs v with
    | none => exact scopeRef_of_none htv
    | some d =>
      obtain ⟨_, hl, _⟩ := hc.frame.byref_new v d hsv htv
      exact scopeRef_heap htv (by rw [hl.1]; decide)
  | some c =>
    rcases hc.frame.persists.byref v c hsv with ⟨w, hw, _⟩ | ⟨hst, hf, h, hle, hmove, _⟩
    · simp [scopeRef, hsv, hw, ByrefCell.withFlags]
    · refine absurd ((hc.moved_iff v).2 ⟨c, hsv, hst, hf, h, ?_, hmove⟩) hv
      exact ((hs.byref_lt v c hsv).trans_le hle).ne'

theorem Copied.scopeRefs_eq (hs : Rep s) (hc : Copied env s scope none s t xs ys made lost moved e)
    (hscope : ∀ v ∈ moved, v ∈ scope) :
    scopeRefs t scope = movedRefs t moved + scopeRefs s scope := by
  have heach : ∀ v, scopeRef t v =
      (if v ∈ moved.toFinset then {.byref (follow t v)} else 0) + scopeRef s v := by
    intro v
    by_cases hv : v ∈ moved
    · obtain ⟨c, hsv, hst, hf, p, hp, ht⟩ := (hc.moved_iff v).1 hv
      rw [if_pos (List.mem_toFinset.2 hv), scopeRef_unmoved hsv hf, add_zero,
        scopeRef_moved ht hst hp, follow_of ht]
    · rw [if_neg (fun h => hv (List.mem_toFinset.1 h)), zero_add, hc.scopeRef_eq hs hv]
  have hsub : scope ∩ moved.toFinset = moved.toFinset :=
    Finset.inter_eq_right.2 fun v hv => hscope v (List.mem_toFinset.1 hv)
  have hsum : ∀ vs : List Addr,
      (vs.map fun v => ({.byref (follow t v)} : Multiset Ref)).sum = movedRefs t vs := by
    intro vs
    induction vs with
    | nil => rfl
    | cons v vs ih =>
      rw [List.map_cons, List.sum_cons, ih]
      rfl
  rw [scopeRefs, Finset.sum_congr rfl fun v _ => heach v, Finset.sum_add_distrib,
    Finset.sum_ite_mem, hsub, List.sum_toFinset _ hc.moved_nodup, hsum]
  rfl

/-- The heap copy of a variable that moved is live and was not there before. -/
theorem Copied.mem_movedRefs (hs : Rep s)
    (hc : Copied env s scope none s t xs ys made lost moved e) {r : Ref}
    (hr : r ∈ movedRefs t moved) :
    ∃ v c h, Moves s t v ∧ s.byrefs v = some c ∧ r = .byref h ∧ s.next ≤ h ∧
      t.byrefs v = some (c.forward h) ∧ HeapCopyAt env t c h ∧
      ∃ d, t.byrefs h = some d ∧ d.Live := by
  obtain ⟨v, hv, rfl⟩ := List.mem_map.1 hr
  have hm := (hc.moved_iff v).1 hv
  obtain ⟨c, hsv, _⟩ := id hm
  obtain ⟨hst, _, h, hle, ht, hcopy⟩ := hm.copy hc.frame.persists hsv
  obtain ⟨w, hw, hmeta⟩ := id hcopy
  refine ⟨v, c, h, hm, hsv, by rw [follow_of ht]; rfl, hle, ht, hcopy, _, hw, ?_⟩
  exact (ByrefCell.live_withFlags hmeta).2 (heapByref_live env (hs.byref_ok v c hsv) hst h)

theorem Copied.movedRefs_nodup (hc : Copied env s scope none s t xs ys made lost moved e) :
    (movedRefs t moved).Nodup := by
  refine Multiset.coe_nodup.2 (List.Nodup.map_on (fun v hv w hw he => ?_) hc.moved_nodup)
  obtain ⟨c, _, hst, _, p, _, ht⟩ := (hc.moved_iff v).1 hv
  obtain ⟨d, _, hst', _, q, _, ht'⟩ := (hc.moved_iff w).1 hw
  rw [follow_of ht, follow_of ht', Ref.byref.injEq] at he
  exact hc.rep.forwarding_inj v w _ _ ht ht' hst hst' he

/-- A copy that latches nothing can be undone, the moves of variables apart. -/
theorem Copied.undoable (hd : Disciplined s scope X)
    (hc : Copied env s scope none s t xs ys made lost moved e) (hscope : ∀ v ∈ moved, v ∈ scope)
    (hlatch : LatchesNothing s t) :
    Undoable latched (External s) (graphOf s) (scopeRefs s scope + X) (graphOf t) (ownedRefs ys)
      (movedRefs t moved) e where
  grows := by
    rw [← add_assoc (movedRefs t moved), ← hc.scopeRefs_eq hd.rep hscope, ← add_assoc]
    exact hc.grows.frame X
  nodup := hc.movedRefs_nodup
  fresh r hr := by
    obtain ⟨_, _, h, _, _, rfl, hle, _⟩ := hc.mem_movedRefs hd.rep hr
    refine nodeAt_byref_none ?_
    cases hsh : s.byrefs h with
    | none => rfl
    | some d => exact absurd (hd.rep.byref_lt h d hsh) (Nat.not_lt.2 hle)
  bare r hr := by
    obtain ⟨_, _, h, _, _, rfl, _, _, _, d, hd', hl⟩ := hc.mem_movedRefs hd.rep hr
    exact ⟨byrefNode d, nodeAt_byref hd' (hc.rep.byref_lt h d hd') hl, rfl⟩
  unlatched r n hn hcount := by
    obtain ⟨v, hv, hrv⟩ := heapFlags_of_node hn
    obtain ⟨_, n₀, hn₀, hc₀⟩ := hd.node_of_heapFlags (hlatch r v hv (by omega))
    exact ⟨n₀, hn₀, by omega⟩

/-! ## Reading the records off the graph -/

/-- A block whose node came back is what it was. -/
theorem block_restored {f : Multiset Ref} {a : Addr} {c : BlockCell} (hs : Rep s)
    (hp : Persists env s t) (hsh : Shrinks t u f) (hc : s.blocks a = some c)
    (hnode : nodeAt u (.block a) = nodeAt s (.block a)) : u.blocks a = some c := by
  by_cases hl : c.Live
  · rw [nodeAt_block hc (hs.block_lt a c hc) hl] at hnode
    obtain ⟨d, hd, _, _, hnodes⟩ := nodeAt_block_some hnode
    obtain ⟨w, hw, hm, _⟩ := hp.block a c hc
    obtain ⟨c', w', hc', rfl, hm', _⟩ := hsh.block_some hd
    obtain rfl : c.withFlags w = c' := Option.some.inj (hw.symm.trans hc')
    have hmeta : SameMeta w' c.layout.flags := hm'.trans hm
    have hcount : refcount w' = refcount c.layout.flags := (congrArg Node.count hnodes).symm
    have hflags : w' = c.layout.flags := flags_ext hcount hmeta.dealloc hmeta.high
    rw [hd, hflags]
    rfl
  · exact hsh.block_dead (hp.block_dead hc hl) hl

/-- A `__block` record that did not move and whose node came back is what it
was. -/
theorem byref_restored {f : Multiset Ref} {a : Addr} {c : ByrefCell} (hs : Rep s)
    (hp : Persists env s t) (hsh : Shrinks t u f) (hc : s.byrefs a = some c)
    (hstay : ¬Moves s t a) (hsettled : c.storage = .heap → c.Live)
    (hnode : nodeAt u (.byref a) = nodeAt s (.byref a)) : u.byrefs a = some c := by
  by_cases hst : c.storage = .stack
  · have hdead := ByrefCell.not_live_of_stack hst
    rcases hp.byref_stack hc hst with ht | ⟨hf, h, hle, hmove, _⟩
    · exact hsh.byref_dead ht hdead
    · have hne : h ≠ a := ((hs.byref_lt a c hc).trans_le hle).ne'
      exact absurd ⟨c, hc, hst, hf, h, hne, hmove⟩ hstay
  · have hl : c.Live := by
      have hng := (hs.byref_ok a c hc).notGlobal
      refine hsettled ?_
      cases hstorage : c.storage <;> simp_all
    rw [nodeAt_byref hc (hs.byref_lt a c hc) hl] at hnode
    obtain ⟨d, hd, _, _, hnodes⟩ := nodeAt_byref_some hnode
    obtain ⟨w, hw, hm, _⟩ := hp.byref_heap hc hst
    obtain ⟨c', w', hc', rfl, hm', _⟩ := hsh.byref_some hd
    obtain rfl : c.withFlags w = c' := Option.some.inj (hw.symm.trans hc')
    have hmeta : SameMeta w' c.byref.flags := hm'.trans hm
    have hcount : refcount w' = refcount c.byref.flags := (congrArg Node.count hnodes).symm
    have hflags : w' = c.byref.flags := flags_ext hcount hmeta.dealloc hmeta.high
    rw [hd, hflags]
    rfl

/-- The release of what a copy returned undoes the copy. -/
theorem Copied.restored (hd : Disciplined s scope X)
    (hc : Copied env s scope none s t xs ys made lost moved e) (hscope : ∀ v ∈ moved, v ∈ scope)
    (hlatch : LatchesNothing s t) (hr : Released t (ownedRefs ys) u) :
    Restored env scope X s t u := by
  obtain ⟨f, hdrains, hsh⟩ := id hr
  have hundo := hc.undoable hd hscope hlatch
  have hnode : ∀ r, r ∉ movedRefs t moved → nodeAt u r = nodeAt s r :=
    fun r h => hundo.node_eq latched_pos hd.counted hd.positive hdrains h
  have hleft : ∀ r, r ∈ movedRefs t moved → nodeAt u r = some ⟨1, 0⟩ :=
    fun r h => hundo.left_behind latched_pos hd.counted hd.positive hdrains h
  have hblock : ∀ a, nodeAt u (.block a) = nodeAt s (.block a) := by
    intro a
    refine hnode _ fun h => ?_
    obtain ⟨_, _, _, _, _, he, _⟩ := hc.mem_movedRefs hd.rep h
    cases he
  have hold : ∀ a c, s.byrefs a = some c → .byref a ∉ movedRefs t moved := by
    intro a c hca h
    obtain ⟨_, _, b, _, _, he, hle, _⟩ := hc.mem_movedRefs hd.rep h
    rw [Ref.byref.injEq] at he
    exact absurd (hd.rep.byref_lt a c hca) (Nat.not_lt.2 (he ▸ hle))
  have hmoved : ∀ v c, s.byrefs v = some c → Moves s t v →
      ∃ h, LeftMoved env scope s u v c h := by
    intro v c hcv hm
    obtain ⟨hst, _, h, hle, ht, w, hw, hmeta⟩ := hm.copy hc.frame.persists hcv
    have hne : h ≠ v := ((hd.rep.byref_lt v c hcv).trans_le hle).ne'
    have hu := hsh.byref_dead ht (ByrefCell.not_live_of_stack hst)
    have hmem : .byref h ∈ movedRefs t moved := by
      refine List.mem_map.2 ⟨v, (hc.moved_iff v).2 hm, ?_⟩
      rw [follow_of ht]
      rfl
    obtain ⟨d, hud, _, _, hcount⟩ := nodeAt_byref_some (hleft _ hmem)
    obtain ⟨c', w', hc', rfl, hm', _⟩ := hsh.byref_some hud
    obtain rfl := Option.some.inj (hw.symm.trans hc')
    exact ⟨h, hscope v ((hc.moved_iff v).2 hm), hle, hu, scopeRef_moved hu hst hne,
      w', hud, hm'.trans hmeta, (congrArg Node.count hcount).symm⟩
  refine ⟨(hd.copied hc).released hr (hc.counted hd.counted), ?_, ?_, hmoved, ?_, ?_⟩
  · funext a
    cases hsa : s.blocks a with
    | some c => exact block_restored hd.rep hc.frame.persists hsh hsa (hblock a)
    | none =>
      cases hua : u.blocks a with
      | none => rfl
      | some d =>
        -- A block that the copy made would still be a node.
        obtain ⟨c, w, htc, rfl, hm, _⟩ := hsh.block_some hua
        have hl := ((hc.frame.block_new a c hsa htc).2 (by simp)).2.1
        have hrep := hr.rep hc.rep
        have hsome := nodeAt_block hua (hrep.block_lt a _ hua) ((BlockCell.live_withFlags hm).2 hl)
        rw [hblock a, nodeAt_block_none hsa] at hsome
        cases hsome
  · intro a c hsa hstay
    exact byref_restored hd.rep hc.frame.persists hsh hsa hstay (hd.settled_byref a c hsa)
      (hnode _ (hold a c hsa))
  · intro a d hsa hua
    obtain ⟨c, w, htc, rfl, _⟩ := hsh.byref_some hua
    obtain ⟨_, _, v, b, hsv, hst, hf, htv, _⟩ := hc.frame.byref_new a c hsa htc
    have hav : a ≠ v := fun h => by
      rw [h, hsv] at hsa
      cases hsa
    have hm : Moves s t v := ⟨b, hsv, hst, hf, a, hav, htv⟩
    obtain ⟨h, hmv⟩ := hmoved v b hsv hm
    have hu := hsh.byref_dead htv (ByrefCell.not_live_of_stack hst)
    have hah : a = h := by
      have he := Option.some.inj (hu.symm.trans hmv.variable_eq)
      exact congrArg (fun d => d.byref.forwarding) he
    exact ⟨v, b, hsv, hm, hah ▸ hmv⟩
  · intro o
    have hcount : f.count (.object o) = e.count (.object o) :=
      hundo.left_eq latched_pos hd.counted hd.positive hdrains trivial
    exact ⟨e.count (.object o), by rw [hsh.object, hc.frame.object, hcount]⟩

/-! ## The two calls -/

/-- The object is of the kind that the flags name. -/
structure NamesObject (s : Mem) (scope : Finset Addr) (object : Addr) (flags : Flags) : Prop where
  block : flags &&& BLOCK_ALL_COPY_DISPOSE_FLAGS = BLOCK_FIELD_IS_BLOCK →
    AliveOrNull s scope object
  byref : flags &&& BLOCK_ALL_COPY_DISPOSE_FLAGS = BLOCK_FIELD_IS_BYREF ∨
    flags &&& BLOCK_ALL_COPY_DISPOSE_FLAGS = BLOCK_FIELD_IS_BYREF ||| BLOCK_FIELD_IS_WEAK →
    AliveByref s scope object

/-- `_Block_object_assign` for what a block helper passes. -/
theorem blockObjectAssign_copied (hmalloc : ∀ k, env.mallocOk k = true)
    (hd : Disciplined s scope X) {x : Capture} {flags : Flags} (hx : x.kind.flags = some flags)
    (hobj : NamesObject s scope x.value flags) :
    ∃ v t made moved e, blockObjectAssign env x.value flags s = .ok (some v, t) ∧
      Copied env s scope none s t [x] [{ x with value := v }] made 0 moved e ∧
      ∀ v ∈ moved, v ∈ scope := by
  have hblock : x.kind = .block → AliveOrNull s scope x.value := fun hk => by
    rw [hk] at hx
    cases hx
    exact hobj.block rfl
  have hbyref : x.kind.isByref → AliveByref s scope x.value := fun hk => by
    rcases hk with hk | hk <;> rw [hk] at hx <;> cases hx
    · exact hobj.byref (Or.inl rfl)
    · exact hobj.byref (Or.inr rfl)
  obtain ⟨n, hn⟩ : ∃ n, copyFuel s = n + 1 :=
    ⟨copyFuel s - 1, (Nat.succ_pred (Nat.mul_pos (Nat.succ_pos _) (Nat.succ_pos _)).ne').symm⟩
  have hfield : CopiesField env s scope (n + 2) x := by
    refine copiesField hd.rep (fun hk => ?_) hbyref
    rcases hblock hk with hnull | halive
    · exact copiesBlock_external hd.rep (Or.inl hnull)
    · exact copiesBlock_of_alive hd.rep halive (n + 1) (hn ▸ halive.le_copyFuel hd.rep)
  rcases hfield s X flags ⟨Persists.refl env s, hd.rep, hd.counted, hd.positive⟩ hx with
    ⟨_, k, _, hfail⟩ | ⟨_, t, hrun, v, rfl, made, lost, moved, e, hc⟩
  · rw [hmalloc] at hfail
    cases hfail
  · obtain rfl : lost = 0 := hc.calls.2 fun k _ _ => hmalloc k
    refine ⟨v, t, made, moved, e, ?_, hc, fun v hv => ?_⟩
    · unfold blockObjectAssign
      rw [hn]
      exact hrun
    · have hreach := hc.moved_reached v hv
      obtain ⟨c, hcv, hin, _⟩ := hreach.aliveByref hd.rep hd.counted
        (fun y hy hk => by
          rw [List.mem_singleton.1 hy] at hk ⊢
          exact hblock hk)
        (fun y hy hk => by
          rw [List.mem_singleton.1 hy] at hk ⊢
          exact hbyref hk)
      obtain ⟨c', hcv', hst, _⟩ := (hc.moved_iff v).1 hv
      obtain rfl : c = c' := Option.some.inj (hcv.symm.trans hcv')
      exact hin hst

/-- `_Block_object_dispose` of what was stored. -/
theorem blockObjectDispose_copied {x : Capture} {flags : Flags} (hx : x.kind.flags = some flags)
    {v : Addr} (hd : Disciplined t scope (ownedRefs [{ x with value := v }] + X)) :
    ∃ u, blockObjectDispose v flags t = .ok ((), u) ∧
      Released t (ownedRefs [{ x with value := v }]) u := by
  have hrefs : ownedRefs [{ x with value := v }] = Capture.refs { x with value := v } :=
    add_zero _
  rw [hrefs] at hd ⊢
  exact disposeCapture_spec (x := { x with value := v }) (blockReleaseN_spec (releaseFuel t)) hx
    hd.rep hd.counted (card_graphOf_le t)

/-- Dispose undoes assign, for every flags word.  `dest` is what the slot held
before the assignment. -/
theorem dispose_undoes_assign (hmalloc : ∀ k, env.mallocOk k = true)
    (hd : Disciplined s scope X) {object : Addr} {flags : Flags}
    (hobj : NamesObject s scope object flags) (dest : Addr) :
    ∃ v t, blockObjectAssign env object flags s = .ok (v, t) ∧
      (LatchesNothing s t → ∃ u, blockObjectDispose (v.getD dest) flags t = .ok ((), u) ∧
        Restored env scope X s t u) ∧
      (flags &&& BLOCK_ALL_COPY_DISPOSE_FLAGS ∉ documentedFlags →
        v = none ∧ t = s ∧ blockObjectDispose dest flags t = .ok ((), t)) ∧
      (flags &&& BLOCK_ALL_COPY_DISPOSE_FLAGS ∈ documentedFlags → v.isSome) := by
  rcases flags_cases (flags &&& BLOCK_ALL_COPY_DISPOSE_FLAGS) with ⟨k, hk⟩ | hcaller | hundoc
  · have hdoc := FieldKind.flags_documented hk
    have hobj' : NamesObject s scope object (flags &&& BLOCK_ALL_COPY_DISPOSE_FLAGS) := by
      refine ⟨fun h => hobj.block ?_, fun h => hobj.byref ?_⟩
      · rwa [and_all_copy_dispose] at h
      · rwa [and_all_copy_dispose] at h
    obtain ⟨v, t, made, moved, e, hrun, hc, hscope⟩ :=
      blockObjectAssign_copied (x := ⟨k, object⟩) hmalloc hd hk hobj'
    rw [← blockObjectAssign_masked] at hrun
    refine ⟨some v, t, hrun, fun hlatch => ?_, fun h => absurd hdoc h, fun _ => rfl⟩
    obtain ⟨u, hdispose, hr⟩ :=
      blockObjectDispose_copied (x := ⟨k, object⟩) hk (hd.copied hc)
    rw [← blockObjectDispose_masked] at hdispose
    exact ⟨u, hdispose, hc.restored hd hscope hlatch hr⟩
  · have hdoc : flags &&& BLOCK_ALL_COPY_DISPOSE_FLAGS ∈ documentedFlags :=
      List.mem_append_right _ hcaller
    exact ⟨some object, s, blockObjectAssign_caller env object hcaller s,
      fun _ => ⟨s, blockObjectDispose_caller object hcaller s, Restored.refl env hd⟩,
      fun h => absurd hdoc h, fun _ => rfl⟩
  · have hdispose := fun d => blockObjectDispose_undocumented d hundoc s
    exact ⟨none, s, blockObjectAssign_undocumented env object hundoc s,
      fun _ => ⟨s, hdispose dest, Restored.refl env hd⟩, fun _ => ⟨rfl, rfl, hdispose dest⟩,
      fun h => absurd h hundoc⟩

end

/-- The memory after `_Block_object_assign` of a block literal with a nested
block and a `__block` variable. -/
def nestedAssigned : Mem :=
  match blockObjectAssign plentiful 3 0x47 nested with
  | .ok (_, t) => t
  | .error _ => nested

theorem latchesNothing_nested (hrep : Rep nestedAssigned) :
    LatchesNothing nested nestedAssigned := by
  have hsmall : ∀ a < 7, (heapFlags nestedAssigned (.block a)).all (refcount · ≠ latched) ∧
      (heapFlags nestedAssigned (.byref a)).all (refcount · ≠ latched) := by decide
  intro r v hv hlatched
  cases r with
  | block a =>
    have hlt : a < 7 := by
      simp only [heapFlags, Option.map_eq_some_iff, Option.filter_eq_some_iff] at hv
      obtain ⟨c, ⟨hc, _⟩, _⟩ := hv
      exact hrep.block_lt a c hc
    have hne := (hsmall a hlt).1
    rw [hv] at hne
    simp [hlatched] at hne
  | byref a =>
    have hlt : a < 7 := by
      simp only [heapFlags, Option.map_eq_some_iff, Option.filter_eq_some_iff] at hv
      obtain ⟨c, ⟨hc, _⟩, _⟩ := hv
      exact hrep.byref_lt a c hc
    have hne := (hsmall a hlt).2
    rw [hv] at hne
    simp [hlatched] at hne
  | object o => cases hv

/-- The flags word has a bit that the runtime masks out. -/
theorem dispose_undoes_assign_nested :
    ∃ t u, blockObjectAssign plentiful 3 0x47 nested = .ok (some 4, t) ∧
      blockObjectDispose 4 0x47 t = .ok ((), u) ∧ Restored plentiful {3, 2, 1} 0 nested t u := by
  have hobj : ∀ flags : Flags, flags &&& BLOCK_ALL_COPY_DISPOSE_FLAGS = 7 →
      NamesObject nested {3, 2, 1} 3 flags := fun flags h =>
    ⟨fun _ => Or.inr nested_alive,
      fun h' => by rcases h' with h' | h' <;> rw [h] at h' <;> cases h'⟩
  have hassign : blockObjectAssign plentiful 3 0x47 nested = .ok (some 4, nestedAssigned) := rfl
  obtain ⟨v, t, hrun, hundo, _⟩ :=
    dispose_undoes_assign plentiful_mallocOk nested_disciplined (hobj 0x47 rfl) 0
  obtain ⟨v', t', _, _, _, hrun', hc, _⟩ := blockObjectAssign_copied (x := ⟨.block, 3⟩)
    plentiful_mallocOk nested_disciplined rfl (hobj 7 rfl)
  have hsame : blockObjectAssign plentiful 3 0x47 nested =
      blockObjectAssign plentiful 3 BLOCK_FIELD_IS_BLOCK nested := by
    rw [blockObjectAssign_masked]
    rfl
  rw [hassign, Except.ok.injEq, Prod.mk.injEq] at hrun
  obtain ⟨rfl, rfl⟩ := hrun
  rw [← hsame, hassign, Except.ok.injEq, Prod.mk.injEq] at hrun'
  obtain ⟨_, rfl⟩ := hrun'
  obtain ⟨u, hdispose, hrestored⟩ := hundo (latchesNothing_nested hc.rep)
  exact ⟨nestedAssigned, u, hassign, hdispose, hrestored⟩

end BlocksRuntime
