import BlocksRuntime.Copy

/-!
# The order of releases

References are given up one complete call at a time: `_Block_release` for a
reference that the client holds, `_Block_object_dispose` for the reference of
a `__block` variable whose scope ends.  The memory afterwards, and what was
called on the way, do not depend on the order.

* `GiveUp` is one such call, and `giveUpAll` a list of them.
* `giveUpAll_spec` says that the calls return and that together they are one
  `Released` step for all the references.
* `Released.determined` says that such a step has one result only.
-/

namespace BlocksRuntime

open Ownership

/-- A call that gives up one outstanding reference. -/
inductive GiveUp where
  /-- `_Block_release` on a reference that the client holds. -/
  | release (b : Addr)
  /-- `_Block_object_dispose` on the variable `v` at the end of its scope. -/
  | endScope (v : Addr) (flags : Flags)
  deriving DecidableEq, Repr

/-- The call that gives the reference up. -/
def GiveUp.run : GiveUp → M Unit
  | .release b => blockRelease b
  | .endScope v flags => blockObjectDispose v flags

/-- The calls one after the other. -/
def giveUpAll : List GiveUp → M Unit
  | [] => pure ()
  | c :: cs => do
    c.run
    giveUpAll cs

/-- The client's reference that a call gives up. -/
def GiveUp.client : GiveUp → Multiset Ref
  | .release b => {.block b}
  | .endScope _ _ => 0

/-- The variable whose scope a call ends. -/
def GiveUp.variable : GiveUp → Multiset Addr
  | .release _ => 0
  | .endScope v _ => {v}

/-- The reference that a call gives up. -/
def GiveUp.ref (s : Mem) : GiveUp → Multiset Ref
  | .release b => {.block b}
  | .endScope v _ => scopeRef s v

/-- The references that the calls give up are outstanding: the client holds
those it releases, and a scope ends once. -/
structure Outstanding (s : Mem) (scope : Finset Addr) (w : Multiset Ref) (cs : List GiveUp) :
    Prop where
  client : (cs.map GiveUp.client).sum ≤ w
  once : (cs.map GiveUp.variable).sum.Nodup
  scopes : ∀ v flags, .endScope v flags ∈ cs → v ∈ scope ∧ flags ∈ scopeExitFlags ∧
    ∃ c, s.byrefs v = some c ∧ c.storage = .stack

theorem mem_variables {v : Addr} {flags : Flags} {cs : List GiveUp} (h : .endScope v flags ∈ cs) :
    v ∈ (cs.map GiveUp.variable).sum := by
  induction cs with
  | nil => cases h
  | cons c cs ih =>
    rw [List.map_cons, List.sum_cons, Multiset.mem_add]
    rcases List.mem_cons.1 h with rfl | h
    · exact Or.inl (Multiset.mem_singleton_self v)
    · exact Or.inr (ih h)

theorem Outstanding.perm {s : Mem} {scope : Finset Addr} {w : Multiset Ref} {cs ds : List GiveUp}
    (h : Outstanding s scope w cs) (hp : cs.Perm ds) : Outstanding s scope w ds where
  client := by
    rw [← (hp.map GiveUp.client).sum_eq]
    exact h.client
  once := by
    rw [← (hp.map GiveUp.variable).sum_eq]
    exact h.once
  scopes v flags hv := h.scopes v flags (hp.mem_iff.2 hv)

/-! ## A release has one result -/

theorem BlockCell.withFlags_eq {c : BlockCell} {v w : Flags} (hv : SameMeta v c.layout.flags)
    (hw : SameMeta w c.layout.flags) (hc : refcount v = refcount w) :
    c.withFlags v = c.withFlags w := by
  rw [flags_ext hc (hv.dealloc.trans hw.dealloc.symm) (hv.high.trans hw.high.symm)]

theorem ByrefCell.withFlags_eq {c : ByrefCell} {v w : Flags} (hv : SameMeta v c.byref.flags)
    (hw : SameMeta w c.byref.flags) (hc : refcount v = refcount w) :
    c.withFlags v = c.withFlags w := by
  rw [flags_ext hc (hv.dealloc.trans hw.dealloc.symm) (hv.high.trans hw.high.symm)]

/-- Traces with the same events about each record and object have the same
events. -/
theorem perm_of_history {t u : List Event} (h : ∀ r, history r t = history r u) : t.Perm u := by
  rw [List.perm_iff_count]
  intro e
  have hcount : ∀ l : List Event, l.count e = (history e.subject l).count e := fun l => by
    rw [history, List.count_filter (by simp)]
  rw [hcount t, hcount u, h]

section

variable {s t u : Mem} {w f : Multiset Ref}

/-- The blocks after a release follow from the graph. -/
theorem Shrinks.block_determined (hs : Rep s) (ht : Shrinks s t f) (hu : Shrinks s u f)
    (hg : graphOf t = graphOf u) (a : Addr) : t.blocks a = u.blocks a ∧
      history (.block a) t.trace = history (.block a) u.trace := by
  cases hc : s.blocks a with
  | none =>
    obtain ⟨ht₀, hth⟩ := ht.block_none a hc
    obtain ⟨hu₀, huh⟩ := hu.block_none a hc
    exact ⟨ht₀.trans hu₀.symm, hth.trans huh.symm⟩
  | some c =>
    have hlt := hs.block_lt a c hc
    have hnode : nodeAt t (.block a) = nodeAt u (.block a) := by
      rw [← graphOf_node, hg, graphOf_node]
    rcases ht.block a c hc with ⟨v, hv, hvm, hvl, hvh⟩ | ⟨hv, hl, hvh⟩ <;>
      rcases hu.block a c hc with ⟨v', hv', hvm', hvl', hvh'⟩ | ⟨hv', hl', hvh'⟩
    · refine ⟨?_, hvh.trans hvh'.symm⟩
      rw [hv, hv']
      by_cases hl : c.Live
      · rw [nodeAt_block hv (by rw [ht.next]; exact hlt) ((BlockCell.live_withFlags hvm).2 hl),
          nodeAt_block hv' (by rw [hu.next]; exact hlt) ((BlockCell.live_withFlags hvm').2 hl),
          Option.some.injEq, blockNode, blockNode, Node.mk.injEq] at hnode
        rw [BlockCell.withFlags_eq hvm hvm' hnode.1]
      · rw [hvl hl, hvl' hl]
    · rw [nodeAt_block hv (by rw [ht.next]; exact hlt) ((BlockCell.live_withFlags hvm).2 hl'),
        nodeAt_block_none hv'] at hnode
      cases hnode
    · rw [nodeAt_block hv' (by rw [hu.next]; exact hlt) ((BlockCell.live_withFlags hvm').2 hl),
        nodeAt_block_none hv] at hnode
      cases hnode
    · exact ⟨hv.trans hv'.symm, hvh.trans hvh'.symm⟩

/-- The `__block` records after a release follow from the graph. -/
theorem Shrinks.byref_determined (hs : Rep s) (ht : Shrinks s t f) (hu : Shrinks s u f)
    (hg : graphOf t = graphOf u) (a : Addr) : t.byrefs a = u.byrefs a ∧
      history (.byref a) t.trace = history (.byref a) u.trace := by
  cases hc : s.byrefs a with
  | none =>
    obtain ⟨ht₀, hth⟩ := ht.byref_none a hc
    obtain ⟨hu₀, huh⟩ := hu.byref_none a hc
    exact ⟨ht₀.trans hu₀.symm, hth.trans huh.symm⟩
  | some c =>
    have hlt := hs.byref_lt a c hc
    have hnode : nodeAt t (.byref a) = nodeAt u (.byref a) := by
      rw [← graphOf_node, hg, graphOf_node]
    rcases ht.byref a c hc with ⟨v, hv, hvm, hvl, hvh⟩ | ⟨hv, hl, hvh⟩ <;>
      rcases hu.byref a c hc with ⟨v', hv', hvm', hvl', hvh'⟩ | ⟨hv', hl', hvh'⟩
    · refine ⟨?_, hvh.trans hvh'.symm⟩
      rw [hv, hv']
      by_cases hl : c.Live
      · rw [nodeAt_byref hv (by rw [ht.next]; exact hlt) ((ByrefCell.live_withFlags hvm).2 hl),
          nodeAt_byref hv' (by rw [hu.next]; exact hlt) ((ByrefCell.live_withFlags hvm').2 hl),
          Option.some.injEq, byrefNode, byrefNode, Node.mk.injEq] at hnode
        rw [ByrefCell.withFlags_eq hvm hvm' hnode.1]
      · rw [hvl hl, hvl' hl]
    · rw [nodeAt_byref hv (by rw [ht.next]; exact hlt) ((ByrefCell.live_withFlags hvm).2 hl'),
        nodeAt_byref_none hv'] at hnode
      cases hnode
    · rw [nodeAt_byref hv' (by rw [hu.next]; exact hlt) ((ByrefCell.live_withFlags hvm').2 hl),
        nodeAt_byref_none hv] at hnode
      cases hnode
    · exact ⟨hv.trans hv'.symm, hvh.trans hvh'.symm⟩

/-- Two complete releases of the same references end in the same memory, after
the same events about each record and object. -/
theorem Released.determined (hs : Rep s) (ht : Released s w t) (hu : Released s w u) :
    t.blocks = u.blocks ∧ t.byrefs = u.byrefs ∧
      ∀ r, history r t.trace = history r u.trace := by
  obtain ⟨f, hdt, hst⟩ := ht
  obtain ⟨f', hdu, hsu⟩ := hu
  obtain ⟨hg, rfl⟩ := hdt.unique hdu
  refine ⟨?_, ?_, ?_⟩
  · funext a
    exact (hst.block_determined hs hsu hg a).1
  · funext a
    exact (hst.byref_determined hs hsu hg a).1
  · intro r
    cases r with
    | block a => exact (hst.block_determined hs hsu hg a).2
    | byref a => exact (hst.byref_determined hs hsu hg a).2
    | object o => rw [hst.object, hsu.object]

end

/-! ## A list of calls is one release -/

section

variable {s : Mem} {scope : Finset Addr} {w : Multiset Ref}

/-- The references that the calls give up do not depend on what was released
before. -/
theorem GiveUp.ref_congr {t : Mem} {f : Multiset Ref} (h : Shrinks s t f) (c : GiveUp) :
    c.ref t = c.ref s := by
  cases c with
  | release b => rfl
  | endScope v flags => exact h.scopeRef v

/-- One call. -/
theorem GiveUp.run_spec (c : GiveUp) {cs : List GiveUp} (hs : Rep s) (hw : Counted s scope w)
    (ho : Outstanding s scope w (c :: cs)) :
    ∃ t scope' w', c.run s = .ok ((), t) ∧ Released s (c.ref s) t ∧ Counted t scope' w' ∧
      Outstanding t scope' w' cs ∧ w = c.client + w' := by
  obtain ⟨hclient, honce, hscopes⟩ := ho
  rw [List.map_cons, List.sum_cons] at hclient honce
  -- Variables on the stack stay there.
  have hstack : ∀ {t : Mem} {f : Multiset Ref}, Shrinks s t f → ∀ v flags,
      .endScope v flags ∈ cs → ∃ d, t.byrefs v = some d ∧ d.storage = .stack := by
    intro t f hsh v flags hv
    obtain ⟨_, _, d, hd, hst⟩ := hscopes v flags (List.mem_cons_of_mem c hv)
    exact ⟨d, hsh.byref_dead hd (ByrefCell.not_live_of_stack hst), hst⟩
  cases c with
  | release b =>
    obtain ⟨w', rfl⟩ := Multiset.le_iff_exists_add.1 hclient
    rw [GiveUp.client, add_assoc] at hw
    obtain ⟨t, ht, hr⟩ := blockRelease_spec hs hw
    obtain ⟨f, hd, hsh⟩ := id hr
    refine ⟨t, scope, _, ht, hr, hr.counted hw, ⟨Multiset.le_add_right _ w', ?_, ?_⟩,
      by rw [GiveUp.client, add_assoc]⟩
    · rwa [GiveUp.variable, zero_add] at honce
    · intro v flags hv
      obtain ⟨hin, hfl, _⟩ := hscopes v flags (List.mem_cons_of_mem _ hv)
      exact ⟨hin, hfl, hstack hsh v flags hv⟩
  | endScope v flags =>
    obtain ⟨hin, hfl, d, hd, hst⟩ := hscopes v flags List.mem_cons_self
    obtain ⟨t, ht, hr⟩ := scopeExit_spec hs hw hin hd hst hfl
    obtain ⟨f, hdr, hsh⟩ := id hr
    rw [GiveUp.variable, Multiset.singleton_add, Multiset.nodup_cons] at honce
    refine ⟨t, scope.erase v, w, ht, hr, hr.counted (hw.endScope hin), ⟨?_, honce.2, ?_⟩,
      (zero_add w).symm⟩
    · rwa [GiveUp.client, zero_add] at hclient
    · intro v' flags' hv'
      obtain ⟨hin', hfl', _⟩ := hscopes v' flags' (List.mem_cons_of_mem _ hv')
      refine ⟨Finset.mem_erase.2 ⟨fun he => ?_, hin'⟩, hfl', hstack hsh v' flags' hv'⟩
      rw [he] at hv'
      exact honce.1 (mem_variables hv')

/-- The calls return, together they release all the references, and the other
references stay counted. -/
theorem giveUpAll_spec (cs : List GiveUp) :
    ∀ (s : Mem) (scope : Finset Addr) (w : Multiset Ref), Rep s → Counted s scope w →
      Outstanding s scope w cs →
      ∃ t scope' w', giveUpAll cs s = .ok ((), t) ∧ Released s (cs.map (GiveUp.ref s)).sum t ∧
        Counted t scope' w' ∧ w = (cs.map GiveUp.client).sum + w' := by
  induction cs with
  | nil => exact fun s scope w _ hw _ => ⟨s, scope, w, rfl, Released.nil s, hw, (zero_add w).symm⟩
  | cons c cs ih =>
    intro s scope w hs hw ho
    obtain ⟨s₁, scope₁, w₁, h₁, hr₁, hw₁, ho₁, rfl⟩ := c.run_spec hs hw ho
    obtain ⟨t, scope₂, w₂, ht, hrt, hw₂, rfl⟩ := ih s₁ scope₁ w₁ (hr₁.rep hs) hw₁ ho₁
    refine ⟨t, scope₂, w₂, ?_, ?_, hw₂, by rw [List.map_cons, List.sum_cons, add_assoc]⟩
    · rw [giveUpAll, bind_ok h₁]
      exact ht
    · obtain ⟨f, hd, hsh⟩ := id hr₁
      rw [List.map_congr_left fun c _ => c.ref_congr hsh] at hrt
      rw [List.map_cons, List.sum_cons]
      exact hr₁.add hrt

end

/-- The order in which references are given up does not matter. -/
theorem giveUpAll_perm {s : Mem} {scope : Finset Addr} {w : Multiset Ref} {cs ds : List GiveUp}
    (hs : Rep s) (hw : Counted s scope w) (ho : Outstanding s scope w cs) (hp : cs.Perm ds) :
    ∃ t u, giveUpAll cs s = .ok ((), t) ∧ giveUpAll ds s = .ok ((), u) ∧
      t.blocks = u.blocks ∧ t.byrefs = u.byrefs ∧ t.trace.Perm u.trace := by
  obtain ⟨t, _, _, ht, hrt, _⟩ := giveUpAll_spec cs s scope w hs hw ho
  obtain ⟨u, _, _, hu, hru, _⟩ := giveUpAll_spec ds s scope w hs hw (ho.perm hp)
  rw [← (hp.map (GiveUp.ref s)).sum_eq] at hru
  obtain ⟨hb, hy, hh⟩ := hrt.determined hs hru
  exact ⟨t, u, ht, hu, hb, hy, perm_of_history hh⟩

theorem giveUpAll_perm_nested :
    ∃ c s, blockCopy plentiful 3 nested = .ok (c, s) ∧
      ∃ t u, giveUpAll [.release c, .endScope 1 BLOCK_FIELD_IS_BYREF] s = .ok ((), t) ∧
        giveUpAll [.endScope 1 BLOCK_FIELD_IS_BYREF, .release c] s = .ok ((), u) ∧
        t.blocks = u.blocks ∧ t.byrefs = u.byrefs ∧ t.trace.Perm u.trace := by
  have hd := nested_disciplined
  obtain ⟨c, s, made, moved, e, hrun, hc⟩ :=
    blockCopy_ok hd.rep hd.counted hd.positive plentiful_mallocOk nested_alive
  refine ⟨c, s, hrun, giveUpAll_perm hc.rep (hc.counted hd.counted) ⟨?_, ?_, ?_⟩
    (List.Perm.swap _ _ _)⟩
  · simp [GiveUp.client, ownedRefs, Capture.refs]
  · simp [GiveUp.variable]
  · intro v flags hv
    obtain ⟨rfl, rfl⟩ : v = 1 ∧ flags = BLOCK_FIELD_IS_BYREF := by simpa using hv
    refine ⟨by decide, by decide, ?_⟩
    have hcell : nested.byrefs 1 = some ⟨.stack, { counterRecord with forwarding := 1 }⟩ := rfl
    rcases hc.frame.persists.byref_stack hcell rfl with hstay | ⟨_, p, _, hp, _⟩
    · exact ⟨_, hstay, rfl⟩
    · exact ⟨_, hp, rfl⟩

end BlocksRuntime
