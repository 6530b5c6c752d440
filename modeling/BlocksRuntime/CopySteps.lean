import BlocksRuntime.CopyFrame
import BlocksRuntime.CopyingFrame

/-!
# The steps of a copy

What one call does to one captured variable, on a memory that is used
according to the ownership discipline.

* `Copied` says what a completed copy of some captured variables did: the
  frame, the growth of the ownership graph, the copies made, the variables
  moved, and the calls of `malloc`.  Copies compose by `Copied.trans`.
* `copied_plain`, `copied_object`, `copied_external`, `copied_heap`,
  `copied_failed` and `copied_byref` make no record.
* `copied_move` is the move of a `__block` variable to the heap.
-/

namespace BlocksRuntime

open Ownership

/-! ## What a copy does -/

/-- The variable `v` moves to the heap between `s` and `t`. -/
def Moves (s t : Mem) (v : Addr) : Prop :=
  ∃ c, s.byrefs v = some c ∧ c.storage = .stack ∧ c.byref.forwarding = v ∧
    ∃ h, h ≠ v ∧ t.byrefs v = some (c.forward h)

/-- The `__block` variables that a list of captured variables reaches through
stack blocks. -/
inductive Reaches (s : Mem) : List Capture → Addr → Prop where
  | here (xs : List Capture) (x : Capture) (hmem : x ∈ xs) (hx : x.kind.isByref) :
      Reaches s xs x.value
  | nested (xs : List Capture) (x : Capture) (c : BlockCell) (v : Addr) (hmem : x ∈ xs)
      (hx : x.kind = .block) (hc : s.blocks x.value = some c) (hs : c.storage = .stack)
      (h : Reaches s c.layout.captured v) : Reaches s xs v

/-- The captured variables `xs`, seen from the memory `s₀`, were copied
between `s` and `t` and became `ys`. -/
structure Copied (env : Env) (s₀ : Mem) (scope : Finset Addr) (d : Option Addr) (s t : Mem)
    (xs ys : List Capture) (made : List Addr) (lost : Nat) (moved : List Addr)
    (e : Multiset Ref) : Prop where
  rep : Rep t
  frame : Extends env d s t e
  grows : Grows latched (External s) (graphOf s) (scopeRefs s scope) (graphOf t)
    (ownedRefs ys + scopeRefs t scope) e
  copy : CopyOf s₀ t xs ys made lost
  made_lt : made.Pairwise (· < ·)
  made_range : ∀ a ∈ made, s.next ≤ a ∧ a < t.next
  made_all : ∀ a c, s.blocks a = none → t.blocks a = some c → some a ≠ d → a ∈ made
  moved_nodup : moved.Nodup
  moved_iff : ∀ v, v ∈ moved ↔ Moves s t v
  moved_reached : ∀ v ∈ moved, Reaches s₀ xs v
  mallocs : t.mallocs = s.mallocs + made.length + moved.length + lost
  calls : lost = 0 ↔ ∀ k, s.mallocs ≤ k → k < t.mallocs → env.mallocOk k = true

theorem Reaches.mono {s : Mem} {xs ys : List Capture} {v : Addr} (h : Reaches s xs v)
    (hsub : ∀ x ∈ xs, x ∈ ys) : Reaches s ys v := by
  cases h with
  | here _ x hmem hx => exact .here ys x (hsub x hmem) hx
  | nested _ x c _ hmem hx hc hs h => exact .nested ys x c v (hsub x hmem) hx hc hs h

section

variable {env : Env} {s₀ s t u : Mem} {scope : Finset Addr} {d : Option Addr}
  {xs ys xs' ys' : List Capture} {made made' : List Addr} {lost lost' : Nat}
  {moved moved' : List Addr} {e e' : Multiset Ref} {X : Multiset Ref}

theorem latched_pos : 0 < latched := by decide

/-- The counting discipline after a copy: the copied variables are pending. -/
theorem Copied.counted (h : Copied env s₀ scope d s t xs ys made lost moved e)
    (hw : Counted s scope X) : Counted t scope (ownedRefs ys + X) := by
  have hg := (h.grows.frame X).sound latched_pos hw
  rw [Counted, h.frame.external, add_left_comm, ← add_assoc]
  exact hg

theorem Copied.positive (h : Copied env s₀ scope d s t xs ys made lost moved e)
    (hp : Positive (graphOf s)) : Positive (graphOf t) := h.grows.positive hp

/-- A variable that has moved does not move again. -/
theorem Moves.not_again {v : Addr} (h : Moves s t v) : ¬Moves t u v := by
  obtain ⟨c, _, _, _, p, hp, ht⟩ := h
  intro h'
  obtain ⟨c', hc', _, hf', _⟩ := h'
  rw [ht, Option.some.injEq] at hc'
  rw [← hc'] at hf'
  exact hp hf'

theorem Moves.persists {v : Addr} (h : Moves s t v) (h' : Persists env t u) : Moves s u v := by
  obtain ⟨c, hc, hst, hf, p, hp, ht⟩ := h
  rcases h'.byref_stack ht hst with hu | ⟨hf', _⟩
  · exact ⟨c, hc, hst, hf, p, hp, hu⟩
  · exact absurd hf' hp

theorem Moves.earlier {v : Addr} (h : Extends env d s t e) (h' : Moves t u v) : Moves s u v := by
  obtain ⟨c, hc, hst, hf, p, hp, hu⟩ := h'
  cases hs : s.byrefs v with
  | none =>
    obtain ⟨_, hl, _⟩ := h.byref_new v c hs hc
    exact absurd hl (ByrefCell.not_live_of_stack hst)
  | some c' =>
    rcases h.persists.byref v c' hs with ⟨w, hw, _, hl⟩ | ⟨hst', hf', q, _, hq, _⟩
    · rw [hc, Option.some.injEq] at hw
      have hst' : c'.storage = .stack := by
        rw [hw] at hst
        exact hst
      rw [hl (ByrefCell.not_live_of_stack hst'), ByrefCell.withFlags_flags] at hw
      exact ⟨c, hs ▸ hw ▸ rfl, hst, hf, p, hp, hu⟩
    · rw [hc, Option.some.injEq] at hq
      have hqv : q = v := by
        rw [hq] at hf
        exact hf
      rw [hqv, ByrefCell.forward_self hf'] at hq
      exact ⟨c, hs ▸ hq ▸ rfl, hst, hf, p, hp, hu⟩

/-- A variable that moves in two steps moves in one of them. -/
theorem Moves.trans_iff (h : Extends env d s t e) (h' : Persists env t u) (v : Addr) :
    Moves s u v ↔ Moves s t v ∨ Moves t u v := by
  refine ⟨fun hm => ?_, fun hm => hm.elim (·.persists h') (Moves.earlier h)⟩
  obtain ⟨c, hc, hst, hf, p, hp, hu⟩ := hm
  rcases h.persists.byref_stack hc hst with ht | ⟨_, q, _, ht, _⟩
  · exact Or.inr ⟨c, ht, hst, hf, p, hp, hu⟩
  · by_cases hqv : q = v
    · rw [hqv, ByrefCell.forward_self hf] at ht
      exact Or.inr ⟨c, ht, hst, hf, p, hp, hu⟩
    · exact Or.inl ⟨c, hc, hst, hf, q, hqv, ht⟩

/-- Copies one after the other. -/
theorem Copied.trans (h : Copied env s₀ scope d s t xs ys made lost moved e)
    (h' : Copied env s₀ scope none t u xs' ys' made' lost' moved' e') :
    Copied env s₀ scope d s u (xs ++ xs') (ys ++ ys') (made ++ made') (lost + lost')
      (moved ++ moved') (e + e') where
  rep := h'.rep
  frame := h.frame.trans h'.frame
  grows := by
    have hg' := h'.grows.frame (ownedRefs ys)
    rw [h.frame.external] at hg'
    have hg := h.grows
    rw [add_comm (ownedRefs ys)] at hg
    have hsum := hg.trans hg'
    rwa [ownedRefs_append, add_comm (ownedRefs ys), add_right_comm]
  copy := (h.copy.persists h'.frame.persists).append h'.copy
  made_lt := by
    refine List.pairwise_append.2 ⟨h.made_lt, h'.made_lt, fun a ha b hb => ?_⟩
    exact (h.made_range a ha).2.trans_le (h'.made_range b hb).1
  made_range a ha := by
    rcases List.mem_append.1 ha with ha | ha
    · exact ⟨(h.made_range a ha).1, (h.made_range a ha).2.trans_le h'.frame.persists.next_le⟩
    · exact ⟨h.frame.persists.next_le.trans (h'.made_range a ha).1, (h'.made_range a ha).2⟩
  made_all a c hs hu had := by
    cases ht : t.blocks a with
    | none => exact List.mem_append_right _ (h'.made_all a c ht hu (by simp))
    | some c' => exact List.mem_append_left _ (h.made_all a c' hs ht had)
  moved_nodup := by
    refine List.nodup_append.2 ⟨h.moved_nodup, h'.moved_nodup, fun v hv w hw hvw => ?_⟩
    subst hvw
    exact ((h.moved_iff v).1 hv).not_again ((h'.moved_iff v).1 hw)
  moved_iff v := by
    rw [List.mem_append, h.moved_iff, h'.moved_iff, Moves.trans_iff h.frame h'.frame.persists]
  moved_reached v hv := by
    rcases List.mem_append.1 hv with hv | hv
    · exact (h.moved_reached v hv).mono fun x hx => List.mem_append_left _ hx
    · exact (h'.moved_reached v hv).mono fun x hx => List.mem_append_right _ hx
  mallocs := by
    rw [h'.mallocs, h.mallocs, List.length_append, List.length_append]
    omega
  calls := by
    have hle := h.frame.mallocs_le
    have hle' := h'.frame.mallocs_le
    rw [Nat.add_eq_zero_iff, h.calls, h'.calls]
    refine ⟨fun ⟨hk, hk'⟩ k hl hu => ?_, fun hk => ⟨fun k hl hu => hk k hl (by omega),
      fun k hl hu => hk k (by omega) hu⟩⟩
    by_cases hkt : k < t.mallocs
    · exact hk k hl hkt
    · exact hk' k (by omega) hu

/-! ## Copies that make nothing -/

theorem Extends.congr_taken (h : Extends env d s t e)
    (he : ∀ o, e'.count (.object o) = e.count (.object o)) : Extends env d s t e' :=
  { h with object := fun o => by rw [h.object, he] }

/-- Another count in live records. -/
theorem Extends.of_shrinks (h : Shrinks s t 0) (hb : ∀ a, s.blocks a ≠ none → t.blocks a ≠ none)
    (hy : ∀ a, s.byrefs a ≠ none → t.byrefs a ≠ none) : Extends env none s t 0 where
  persists := {
    next_le := h.next.ge
    block := fun a c hc => by
      rcases h.block a c hc with ⟨w, hw, hm, hl, _⟩ | ⟨hn, _⟩
      · exact ⟨w, hw, hm, hl⟩
      · exact absurd hn (hb a (by simp [hc]))
    byref := fun a c hc => by
      rcases h.byref a c hc with ⟨w, hw, hm, hl, _⟩ | ⟨hn, _⟩
      · exact Or.inl ⟨w, hw, hm, hl⟩
      · exact absurd hn (hy a (by simp [hc])) }
  mallocs_le := h.mallocs.ge
  block_old a _ := by
    cases hc : s.blocks a with
    | none => exact (h.block_none a hc).2
    | some c =>
      rcases h.block a c hc with ⟨_, _, _, _, hh⟩ | ⟨hn, _⟩
      · exact hh
      · exact absurd hn (hb a (by simp [hc]))
  block_new a c hs ht := by
    rw [(h.block_none a hs).1] at ht
    cases ht
  byref_old a _ := by
    cases hc : s.byrefs a with
    | none => exact (h.byref_none a hc).2
    | some c =>
      rcases h.byref a c hc with ⟨_, _, _, _, hh⟩ | ⟨hn, _⟩
      · exact hh
      · exact absurd hn (hy a (by simp [hc]))
  byref_new a c hs ht := by
    rw [(h.byref_none a hs).1] at ht
    cases ht
  object := h.object

/-- A change of the allocation counter and of the events about objects. -/
theorem Extends.of_records (hb : t.blocks = s.blocks) (hy : t.byrefs = s.byrefs)
    (hn : t.next = s.next) (hm : s.mallocs ≤ t.mallocs)
    (hh : ∀ r, (∀ o, r ≠ .object o) → history r t.trace = history r s.trace)
    (ho : ∀ o, history (.object o) t.trace =
      history (.object o) s.trace ++ List.replicate (e.count (.object o)) (.retainObject o)) :
    Extends env none s t e where
  persists := {
    next_le := hn.ge
    block := fun a c hc => ⟨c.layout.flags, by rw [hb, hc]; rfl, SameMeta.refl _, fun _ => rfl⟩
    byref := fun a c hc =>
      Or.inl ⟨c.byref.flags, by rw [hy, hc]; rfl, SameMeta.refl _, fun _ => rfl⟩ }
  mallocs_le := hm
  block_old a _ := hh (.block a) (by simp)
  block_new a c hs ht := by
    rw [hb, hs] at ht
    cases ht
  byref_old a _ := hh (.byref a) (by simp)
  byref_new a c hs ht := by
    rw [hy, hs] at ht
    cases ht
  object := ho

/-- A copy that makes no record and moves no variable. -/
theorem Copied.quiet (hrep : Rep t) (hframe : Extends env none s t e)
    (hgrows : Grows latched (External s) (graphOf s) (scopeRefs s scope) (graphOf t)
      (ownedRefs ys + scopeRefs t scope) e)
    (hcopy : CopyOf s₀ t xs ys [] lost) (hnew : ∀ a, s.blocks a = none → t.blocks a = none)
    (hstay : ∀ v c, s.byrefs v = some c → c.storage = .stack → t.byrefs v = some c)
    (hm : t.mallocs = s.mallocs + lost)
    (hcalls : lost = 0 ↔ ∀ k, s.mallocs ≤ k → k < t.mallocs → env.mallocOk k = true) :
    Copied env s₀ scope none s t xs ys [] lost [] e where
  rep := hrep
  frame := hframe
  grows := hgrows
  copy := hcopy
  made_lt := List.Pairwise.nil
  made_range a ha := by cases ha
  made_all a c hs ht _ := by
    rw [hnew a hs] at ht
    cases ht
  moved_nodup := List.nodup_nil
  moved_iff v := by
    refine ⟨fun h => absurd h List.not_mem_nil, fun h => ?_⟩
    obtain ⟨c, hc, hst, hf, p, hp, ht⟩ := h
    rw [hstay v c hc hst, Option.some.injEq] at ht
    refine absurd ?_ hp
    rw [ht] at hf
    exact hf
  moved_reached v hv := by cases hv
  mallocs := by simp [hm]
  calls := hcalls

/-- Variables that the helpers leave alone. -/
theorem copied_plain (hs : Rep s) (hxs : ∀ x ∈ xs, x.kind = .plain) :
    Copied env s₀ scope none s s xs xs [] 0 [] 0 := by
  have hcopy : CopyOf s₀ s xs xs [] 0 := by
    induction xs with
    | nil => exact .nil
    | cons x xs ih =>
      exact .plain x (Or.inl (hxs x List.mem_cons_self))
        (ih fun y hy => hxs y (List.mem_cons_of_mem x hy))
  refine Copied.quiet hs (Extends.refl env s) ?_ hcopy (fun _ h => h) (fun _ _ h _ => h) rfl
    ⟨fun _ k h h' => absurd h' (by omega), fun _ => rfl⟩
  rw [ownedRefs_plain hxs, zero_add]
  exact Grows.nil _ _ _ _

/-- An object is retained. -/
theorem copied_object {x : Capture} (hs : Rep s) (hx : x.kind = .object) :
    Copied env s₀ scope none s (s.log (.retainObject x.value)) [x] [x] [] 0 []
      {.object x.value} := by
  have howned : ownedRefs [x] = {.object x.value} := by
    simp [ownedRefs, Capture.refs, hx]
  refine Copied.quiet (hs.of_eq rfl rfl rfl) ?_ ?_ (.plain x (Or.inr hx) .nil) (fun _ h => h)
    (fun _ _ h _ => h) rfl ⟨fun _ k h h' => absurd h' (by simp; omega), fun _ => rfl⟩
  · refine Extends.of_records rfl rfl rfl le_rfl (fun r hr => ?_) (fun o => ?_)
    · rw [Mem.log_trace, history_append, history_single, if_neg (fun h => hr _ h.symm),
        List.append_nil]
    · rw [Mem.log_trace, history_append, history_single, Event.subject, Multiset.count_singleton]
      by_cases ho : o = x.value
      · subst ho
        simp
      · simp [ho, Ne.symm ho]
  · rw [howned, Multiset.singleton_add]
    exact Grows.takeOuter trivial

/-- `NULL` and a global block are shared as they are. -/
theorem copied_external {x : Capture} (hs : Rep s) (hx : x.kind = .block)
    (hext : External s (.block x.value))
    (hshared : ∀ c, s₀.blocks x.value = some c → c.storage ≠ .stack) :
    Copied env s₀ scope none s s [x] [x] [] 0 [] {.block x.value} := by
  have howned : ownedRefs [x] = {.block x.value} := by
    simp [ownedRefs, Capture.refs, hx]
  refine Copied.quiet hs ((Extends.refl env s).congr_taken fun o => by simp) ?_
    (.shared x hx hshared .nil) (fun _ h => h) (fun _ _ h _ => h) rfl
    ⟨fun _ k h h' => absurd h' (by omega), fun _ => rfl⟩
  rw [howned, Multiset.singleton_add]
  exact Grows.takeOuter hext

/-- A stack block whose allocation fails. -/
theorem copied_failed {x : Capture} {c : BlockCell} (hs : Rep s) (hx : x.kind = .block)
    (hc : s₀.blocks x.value = some c) (hst : c.storage = .stack)
    (hfail : env.mallocOk s.mallocs = false) :
    Copied env s₀ scope none s { s with mallocs := s.mallocs + 1 } [x] [{ x with value := NULL }]
      [] 1 [] {.block NULL} := by
  have howned : ownedRefs [{ x with value := NULL }] = {.block NULL} := by
    simp [ownedRefs, Capture.refs, hx]
  refine Copied.quiet (hs.of_eq rfl rfl rfl) ?_ ?_ (.failed x hx hc hst .nil) (fun _ h => h)
    (fun _ _ h _ => h) rfl ⟨fun h => absurd h Nat.one_ne_zero, fun h => ?_⟩
  · refine Extends.of_records rfl rfl rfl (Nat.le_succ _) (fun r hr => rfl) (fun o => ?_)
    simp
  · rw [howned, Multiset.singleton_add]
    exact Grows.takeOuter (Or.inl rfl)
  · have := h s.mallocs le_rfl (Nat.lt_succ_self _)
    rw [hfail] at this
    cases this

/-- The count of a live heap block goes up. -/
theorem copied_heap {x : Capture} {c : BlockCell} {v : Flags} (hs : Rep s) (hx : x.kind = .block)
    (hc : s.blocks x.value = some c) (hl : c.Live)
    (hv : refcount v = min latched (refcount c.layout.flags + 1)) (hm : SameMeta v c.layout.flags)
    (hshared : ∀ c, s₀.blocks x.value = some c → c.storage ≠ .stack) :
    Copied env s₀ scope none s (s.setBlock x.value (c.withFlags v)) [x] [x] [] 0 [] 0 := by
  have howned : ownedRefs [x] = {.block x.value} := by
    simp [ownedRefs, Capture.refs, hx]
  have hsh := Shrinks.setBlock_flags hc hl hm
  have hlt := hs.block_lt _ c hc
  have hnode : (graphOf s).node (.block x.value) = some (blockNode c) := nodeAt_block hc hlt hl
  refine Copied.quiet (hsh.rep hs) (Extends.of_shrinks hsh ?_ fun _ h => h) ?_
    (.shared x hx hshared .nil) ?_ (fun _ _ h _ => h) rfl
    ⟨fun _ k h h' => absurd h' (by simp; omega), fun _ => rfl⟩
  · intro a ha
    by_cases hax : a = x.value
    · subst hax
      simp
    · simpa [hax] using ha
  · rw [howned, Multiset.singleton_add,
      graphOf_setBlock_live s hlt ((BlockCell.live_withFlags hm).2 hl)]
    have hacq : (graphOf s).acquire latched (.block x.value) =
        (graphOf s).set (.block x.value) (blockNode (c.withFlags v)) := by
      rw [Graph.acquire_eq_set hnode (refcount_le _)]
      unfold blockNode BlockCell.withFlags
      rw [hv]
    rw [← hacq]
    exact Grows.acquire (by simp [hnode])
  · intro a ha
    have hax : a ≠ x.value := fun h => by
      rw [h, hc] at ha
      cases ha
    simpa [hax] using ha

/-- The count of the heap copy of a `__block` variable goes up. -/
theorem copied_byref {x : Capture} {c d : ByrefCell} {v : Flags} (hs : Rep s)
    (hx : x.kind.isByref) (hc : s.byrefs x.value = some c)
    (hd : s.byrefs c.byref.forwarding = some d) (hl : d.Live)
    (hv : refcount v = min latched (refcount d.byref.flags + 1))
    (hm : SameMeta v d.byref.flags) :
    Copied env s₀ scope none s (s.setByref c.byref.forwarding (d.withFlags v)) [x]
      [{ x with value := c.byref.forwarding }] [] 0 [] 0 := by
  generalize hp : c.byref.forwarding = p at hd
  have howned : ownedRefs [{ x with value := p }] = {.byref p} := by
    rcases hx with hx | hx <;> simp [ownedRefs, Capture.refs, hx]
  have hsh := Shrinks.setByref_flags hd hl hm
  have hlt := hs.byref_lt _ d hd
  have hnode : (graphOf s).node (.byref p) = some (byrefNode d) := nodeAt_byref hd hlt hl
  have hne : ∀ w c, s.byrefs w = some c → c.storage = .stack → w ≠ p := by
    intro w c' hc' hst hwp
    rw [hwp, hd, Option.some.injEq] at hc'
    rw [← hc', hl.1] at hst
    cases hst
  have hstay : ∀ w c', s.byrefs w = some c' → c'.storage = .stack →
      (s.setByref p (d.withFlags v)).byrefs w = some c' := fun w c' hc' hst => by
    simpa [hne w c' hc' hst] using hc'
  refine Copied.quiet (hsh.rep hs) (Extends.of_shrinks hsh (fun _ h => h) ?_) ?_ ?_
    (fun _ h => h) hstay rfl ⟨fun _ k h h' => absurd h' (by simp; omega), fun _ => rfl⟩
  · intro a ha
    by_cases hap : a = p
    · subst hap
      simp
    · simpa [hap] using ha
  · have hscope : scopeRefs (s.setByref p (d.withFlags v)) scope = scopeRefs s scope :=
      hsh.scopeRefs scope
    have hacq : (graphOf s).acquire latched (.byref p) =
        (graphOf s).set (.byref p) (byrefNode (d.withFlags v)) := by
      rw [Graph.acquire_eq_set hnode (refcount_le _)]
      unfold byrefNode ByrefCell.withFlags
      rw [hv]
    rw [howned, Multiset.singleton_add, hscope,
      graphOf_setByref_live s hlt ((ByrefCell.live_withFlags hm).2 hl), ← hacq]
    exact Grows.acquire (by simp [hnode])
  · by_cases hxp : x.value = p
    · have hcd : c = d := by
        rw [hxp, hd, Option.some.injEq] at hc
        exact hc.symm
      have hself : (s.setByref p (d.withFlags v)).byrefs x.value = some (d.withFlags v) := by
        rw [hxp, Mem.setByref_byrefs_self]
      have hf : (d.withFlags v).byref.forwarding = p := by
        rw [← hcd]
        exact hp
      have hcopy := CopyOf.byref (s := s₀) x hx hself (d := d.withFlags v)
        (by rw [hf, Mem.setByref_byrefs_self]) hl.1 .nil
      rwa [hf] at hcopy
    · rw [← hp]
      refine .byref x hx (c := c) ?_ (d := d.withFlags v) ?_ hl.1 .nil
      · simpa [hp, hxp] using hc
      · rw [hp, Mem.setByref_byrefs_self]

/-! ## A variable moves to the heap -/

/-- The memory after the variable `v` has moved to a fresh heap record. -/
def Mem.moveByref (env : Env) (s : Mem) (v : Addr) (c : ByrefCell) : Mem :=
  { s with
    byrefs := Function.update (Function.update s.byrefs v (some (c.forward s.next))) s.next
      (some (heapByref env c.byref s.next))
    next := s.next + 1
    mallocs := s.mallocs + 1
    trace := s.trace ++ byrefBirth v s.next c }

theorem Mem.moveByref_self (env : Env) (s : Mem) (v : Addr) (c : ByrefCell) :
    (s.moveByref env v c).byrefs s.next = some (heapByref env c.byref s.next) := by
  simp [Mem.moveByref]

theorem Mem.moveByref_variable (env : Env) (s : Mem) {v : Addr} (c : ByrefCell)
    (hv : v ≠ s.next) : (s.moveByref env v c).byrefs v = some (c.forward s.next) := by
  simp [Mem.moveByref, hv]

theorem Mem.moveByref_ne (env : Env) (s : Mem) {v a : Addr} (c : ByrefCell) (hv : a ≠ v)
    (ha : a ≠ s.next) : (s.moveByref env v c).byrefs a = s.byrefs a := by
  simp [Mem.moveByref, hv, ha]

/-- What `_Block_object_assign` does for the flags values of `__block`
helpers. -/
theorem blockObjectAssignBody_caller (retainObject : Addr → M Unit)
    (blockCopy blockByrefCopy : Addr → M Addr) (object : Addr) {flags : Flags}
    (h : flags ∈ byrefHelperFlags) :
    blockObjectAssignBody retainObject blockCopy blockByrefCopy object flags =
      pure (some object) := by
  simp only [byrefHelperFlags, List.mem_cons, List.not_mem_nil, or_false] at h
  rcases h with rfl | rfl | rfl | rfl <;> rfl

/-- What `_Block_object_assign` calls for the flags values of block helpers. -/
theorem blockObjectAssignBody_kind (retainObject : Addr → M Unit)
    (blockCopy blockByrefCopy : Addr → M Addr) (object : Addr) {k : FieldKind} {flags : Flags} :
    k.flags = some flags →
    blockObjectAssignBody retainObject blockCopy blockByrefCopy object flags =
      match k with
      | .plain => pure none
      | .object => do
        retainObject object
        return some object
      | .block => do return some (← blockCopy object)
      | .byref => do return some (← blockByrefCopy object)
      | .weakByref => do return some (← blockByrefCopy object) := by
  intro h
  cases k <;> cases h <;> rfl

/-- The keep helper of a `__block` record copies the one word. -/
theorem byrefKeepHelper_ok {n : Nat} {v p : Addr} {c d : ByrefCell} {h : BlockByref2}
    (blockCopy : Addr → M Addr) (hc : s.byrefs v = some c) (hd : s.byrefs p = some d)
    (hh : c.byref.byref2 = some h) (hok : h.Ok c.byref.storage) :
    byrefKeepHelper (blockObjectAssignN env (n + 1)) blockCopy p v s =
      .ok ((), s.setByref p { d with byref := { d.byref with
        storage := d.byref.storage.set h.byrefKeep.field
          (c.byref.storage.getD h.byrefKeep.field 0) } }) := by
  obtain ⟨field, flags, hk, hflags, hlt⟩ := hok.keep
  unfold byrefKeepHelper
  rw [bind_ok (loadByref_ok hc)]
  simp only [hh, hk]
  rw [bind_ok (wordAt_ok (List.getElem?_eq_getElem hlt) s), blockObjectAssignN_succ,
    blockObjectAssignBody_caller _ _ _ _ hflags, bind_ok (pure_apply _ _)]
  simp only
  rw [updateByref_ok hd]
  simp [ByrefKeep.field, List.getD_eq_getElem?_getD, List.getElem?_eq_getElem hlt]

/-- The memory while the variable `v` moves: its heap record is `d`. -/
def Mem.moving (s : Mem) (v : Addr) (c d : ByrefCell) : Mem :=
  { s with
    byrefs := Function.update (Function.update s.byrefs v (some (c.forward s.next))) s.next (some d)
    next := s.next + 1
    mallocs := s.mallocs + 1
    trace := s.trace ++ [.mallocByref v s.next] }

theorem Mem.moving_self (s : Mem) (v : Addr) (c d : ByrefCell) :
    (s.moving v c d).byrefs s.next = some d := by
  simp [Mem.moving]

theorem Mem.moving_variable {s : Mem} {v : Addr} (c d : ByrefCell) (hv : v ≠ s.next) :
    (s.moving v c d).byrefs v = some (c.forward s.next) := by
  simp [Mem.moving, hv]

theorem Mem.moving_setByref (s : Mem) (v : Addr) (c d d' : ByrefCell) :
    (s.moving v c d).setByref s.next d' = s.moving v c d' := by
  simp [Mem.moving, Mem.setByref]

theorem updateByref_moving (s : Mem) (v : Addr) (c d : ByrefCell) (f : BlockByref → BlockByref) :
    updateByref s.next f (s.moving v c d) =
      .ok ((), s.moving v c { d with byref := f d.byref }) := by
  rw [updateByref_ok (s.moving_self v c d), Mem.moving_setByref]

/-- The end of a move with helpers: the keep helper runs, and the result is
read back. -/
theorem byrefKeep_moving {n : Nat} {v : Addr} {c : ByrefCell} {h : BlockByref2} (d : ByrefCell)
    (blockCopy : Addr → M Addr) (hne : v ≠ s.next) (hh : c.byref.byref2 = some h)
    (hok : h.Ok c.byref.storage) :
    (do
      log (.byrefKeep s.next)
      byrefKeepHelper (blockObjectAssignN env (n + 1)) blockCopy s.next v
      let src ← loadByref v
      return src.forwarding : M Addr) (s.moving v c d) =
    .ok (s.next, (s.moving v c { d with byref := { d.byref with
      storage := d.byref.storage.set h.byrefKeep.field
        (c.byref.storage.getD h.byrefKeep.field 0) } }).log (.byrefKeep s.next)) := by
  have hself : ((s.moving v c d).log (.byrefKeep s.next)).byrefs s.next = some d :=
    s.moving_self v c d
  have hvar : ((s.moving v c d).log (.byrefKeep s.next)).byrefs v = some (c.forward s.next) :=
    Mem.moving_variable c d hne
  rw [bind_ok (log_apply _ _), bind_ok (byrefKeepHelper_ok blockCopy hvar hself hh hok),
    bind_ok (loadByref_ok (c := c.forward s.next) (by simpa [hne] using hvar)), pure_apply]
  have hset := s.moving_setByref v c d { d with byref := { d.byref with
    storage := d.byref.storage.set h.byrefKeep.field (c.byref.storage.getD h.byrefKeep.field 0) } }
  rw [← hset]
  rfl

/-- `_Block_byref_copy` on a record with the count zero, up to the helper test. -/
theorem blockByrefCopyBody_moving {byrefKeep : Addr → Addr → M Unit} {v : Addr} {c : ByrefCell}
    (hlt : v < s.next) (hc : s.byrefs v = some c) (hf : c.byref.forwarding = v)
    (hcount : refcount c.byref.flags = 0) (hmalloc : env.mallocOk s.mallocs = true) :
    blockByrefCopyBody env byrefKeep v s =
      (do
        if c.byref.flags &&& BLOCK_BYREF_HAS_COPY_DISPOSE ≠ 0 then
          updateByref s.next fun b => { b with byref2 := c.byref.byref2 }
          if c.byref.flags &&& BLOCK_BYREF_LAYOUT_EXTENDED ≠ 0 then
            let layout ← wordAt c.byref.storage 0
            updateByref s.next fun b => { b with storage := b.storage.set 0 layout }
          log (.byrefKeep s.next)
          byrefKeep s.next v
        else
          updateByref s.next fun b =>
            { b with byref2 := c.byref.byref2, storage := c.byref.storage }
        let src ← loadByref v
        return src.forwarding : M Addr) (s.moving v c (blankRecord env c.byref s.next)) := by
  have hne : v ≠ s.next := Nat.ne_of_lt hlt
  have hzero := (and_refcount_mask_eq_zero c.byref.flags).2 hcount
  unfold blockByrefCopyBody
  rw [bind_ok (loadByref_ok hc), hf, bind_ok (loadByref_ok hc), if_pos hzero,
    bind_ok (malloc_ok hmalloc)]
  simp only
  rw [bind_ok (log_apply _ _), bind_ok (storeByref_apply _ _ _),
    bind_ok (updateByref_ok (c := c) (by simp [hne, hc]) _)]
  have hstart : ∀ d, ((({ s with next := s.next + 1, mallocs := s.mallocs + 1 } : Mem).log
      (.mallocByref v s.next)).setByref s.next d).setByref v
        { c with byref := { c.byref with forwarding := s.next } } = s.moving v c d := by
    intro d
    simp only [Mem.moving, Mem.setByref, Mem.log, Function.update_comm hne.symm,
      ByrefCell.forward]
  rw [hstart]
  rfl

/-- `_Block_byref_copy` on a variable that is still on the stack. -/
theorem blockByrefCopyN_move {n : Nat} {v : Addr} {c : ByrefCell} (hs : Rep s)
    (hc : s.byrefs v = some c) (hst : c.storage = .stack) (hf : c.byref.forwarding = v)
    (hmalloc : env.mallocOk s.mallocs = true) :
    blockByrefCopyN env (n + 1) v s = .ok (s.next, s.moveByref env v c) := by
  have hok := hs.byref_ok v c hc
  have hlt := hs.byref_lt v c hc
  have hne : v ≠ s.next := hlt.ne
  unfold blockByrefCopyN
  rw [blockByrefCopyBody_moving hlt hc hf (hok.stack hst).1 hmalloc]
  by_cases hhas : c.byref.flags &&& BLOCK_BYREF_HAS_COPY_DISPOSE = 0
  · have hnone : c.byref.byref2 = none := by
      by_contra hsome
      exact hok.byref2.2 (Option.isSome_iff_ne_none.2 hsome) hhas
    simp only [hhas, ne_eq, not_true, if_false]
    rw [bind_ok (updateByref_moving s v c _ _),
      bind_ok (loadByref_ok (Mem.moving_variable c _ hne))]
    have hbirth : byrefBirth v s.next c = [.mallocByref v s.next] := by
      rw [byrefBirth, if_neg (not_not.2 hhas)]
    simp [Mem.moving, Mem.moveByref, hbirth, heapByref, byrefStorage, hnone, blankRecord,
      ByrefCell.forward]
  · obtain ⟨h, hh⟩ := Option.isSome_iff_exists.1 (hok.byref2.1 hhas)
    have hhok := hok.helpers h hh
    have hbirth : byrefBirth v s.next c = [.mallocByref v s.next] ++ [.byrefKeep s.next] := by
      rw [byrefBirth, if_pos hhas]
      rfl
    simp only [hhas, ne_eq, not_false_eq_true, if_true]
    rw [bind_ok (updateByref_moving s v c _ _)]
    by_cases hext : c.byref.flags &&& BLOCK_BYREF_LAYOUT_EXTENDED = 0
    · have hstorage : byrefStorage env c.byref =
          ((List.range c.byref.storage.length).map env.junk).set h.byrefKeep.field
            (c.byref.storage.getD h.byrefKeep.field 0) := by
        simp only [byrefStorage, hh, if_neg (not_not.2 hext)]
      simp only [hext, not_true, if_false]
      rw [byrefKeep_moving _ _ hne hh hhok]
      simp [Mem.moving, Mem.moveByref, Mem.log, hbirth, heapByref, hstorage, hh,
        blankRecord]
    · obtain ⟨field, flags, hk, _, hlt⟩ := hhok.keep
      have hword : c.byref.storage[0]? = some (c.byref.storage.getD 0 0) := by
        rw [List.getD_eq_getElem?_getD, List.getElem?_eq_getElem (by omega)]
        rfl
      have hstorage : byrefStorage env c.byref =
          (((List.range c.byref.storage.length).map env.junk).set 0
            (c.byref.storage.getD 0 0)).set h.byrefKeep.field
              (c.byref.storage.getD h.byrefKeep.field 0) := by
        simp only [byrefStorage, hh, if_pos hext]
      simp only [hext, not_false_eq_true, if_true]
      rw [bind_ok (wordAt_ok hword _), bind_ok (updateByref_moving s v c _ _),
        byrefKeep_moving _ _ hne hh hhok]
      simp [Mem.moving, Mem.moveByref, Mem.log, hbirth, heapByref, hstorage, hh,
        blankRecord]

/-- `_Block_byref_copy` on a variable that is still on the stack, without
memory. -/
theorem blockByrefCopyN_fault (n : Nat) {v : Addr} {c : ByrefCell} (hs : Rep s)
    (hc : s.byrefs v = some c) (hst : c.storage = .stack) (hf : c.byref.forwarding = v)
    (hmalloc : env.mallocOk s.mallocs = false) :
    blockByrefCopyN env n v s = .error .nullAccess := by
  have hzero := (and_refcount_mask_eq_zero c.byref.flags).2 ((hs.byref_ok v c hc).stack hst).1
  unfold blockByrefCopyN blockByrefCopyBody
  rw [bind_ok (loadByref_ok hc), hf, bind_ok (loadByref_ok hc), if_pos hzero,
    bind_ok (malloc_none hmalloc)]
  rfl

/-- `_Block_byref_copy` on a variable that has its record on the heap. -/
theorem blockByrefCopyN_heap (env : Env) (n : Nat) {v : Addr} {c d : ByrefCell} (hs : Rep s)
    (hc : s.byrefs v = some c) (hd : s.byrefs c.byref.forwarding = some d) (hl : d.Live)
    (hpos : 0 < refcount d.byref.flags) :
    ∃ w, refcount w = min latched (refcount d.byref.flags + 1) ∧ SameMeta w d.byref.flags ∧
      blockByrefCopyN env n v s =
        .ok (c.byref.forwarding, s.setByref c.byref.forwarding (d.withFlags w)) := by
  obtain ⟨r, w, hrun, hcount, hm⟩ := incr_run_views d.byref.flags
  have hzero : ¬(d.byref.flags &&& BLOCK_REFCOUNT_MASK = 0) := fun h => by
    rw [and_refcount_mask_eq_zero] at h
    omega
  have hfree : d.byref.flags &&& BLOCK_BYREF_NEEDS_FREE = BLOCK_BYREF_NEEDS_FREE :=
    and_needsFree_eq ((hs.byref_ok _ d hd).needsFree.2 hl.1)
  refine ⟨w, hcount, hm, ?_⟩
  unfold blockByrefCopyN blockByrefCopyBody
  rw [bind_ok (loadByref_ok hc), bind_ok (loadByref_ok hd), if_neg hzero, if_pos hfree,
    bind_ok (loopByrefFlags_ok hd _ hrun)]
  show (do
    let src ← loadByref v
    return src.forwarding : M Addr) _ = _
  by_cases hv : v = c.byref.forwarding
  · have hcd : c = d := by
      rw [← hv, hc, Option.some.injEq] at hd
      exact hd
    have hself :
        (s.setByref c.byref.forwarding (d.withFlags w)).byrefs v = some (d.withFlags w) := by
      rw [← hv, Mem.setByref_byrefs_self]
    rw [bind_ok (loadByref_ok hself), pure_apply, hcd]
    rfl
  · rw [bind_ok (loadByref_ok (c := c) (by simpa [hv] using hc))]
    rfl

section

variable {v : Addr} {c : ByrefCell}

theorem length_byrefStorage (env : Env) (b : BlockByref) :
    (byrefStorage env b).length = b.storage.length := by
  unfold byrefStorage
  split
  · rfl
  · simp only [List.length_set]
    split_ifs <;> simp

theorem heapByref_live (env : Env) (hok : c.Ok v) (hst : c.storage = .stack) (p : Addr) :
    (heapByref env c.byref p).Live :=
  ⟨rfl, heapByrefFlags_isDeallocating (hok.stack hst).2⟩

theorem heapByref_ok (env : Env) (hok : c.Ok v) (p : Addr) : (heapByref env c.byref p).Ok p where
  needsFree := iff_of_true (heapByrefFlags_needsFree _) rfl
  notGlobal := by simp [heapByref]
  stack h := by cases h
  heap _ := rfl
  byref2 := by
    show heapByrefFlags c.byref.flags &&& BLOCK_BYREF_HAS_COPY_DISPOSE ≠ 0 ↔ _
    rw [heapByrefFlags_other _ (by decide)]
    exact hok.byref2
  helpers h hh := by
    obtain ⟨hkeep, hdestroy⟩ := hok.helpers h hh
    have hlen : (heapByref env c.byref p).byref.storage.length = c.byref.storage.length :=
      length_byrefStorage env c.byref
    exact ⟨hlen ▸ hkeep, hlen ▸ hdestroy⟩

theorem ByrefCell.Ok.forward (hok : c.Ok v) (hst : c.storage = .stack) (p : Addr) :
    (c.forward p).Ok v :=
  ⟨hok.needsFree, hok.notGlobal, hok.stack, fun h => absurd (hst.symm.trans h) (by decide),
    hok.byref2, hok.helpers⟩

/-- The records after a move. -/
theorem Mem.moveByref_cases (hc : s.byrefs v = some c) (hlt : v < s.next) {a : Addr}
    {d : ByrefCell} (hd : (s.moveByref env v c).byrefs a = some d) :
    (a = s.next ∧ d = heapByref env c.byref s.next) ∨ (a = v ∧ d = c.forward s.next) ∨
      (a ≠ s.next ∧ a ≠ v ∧ s.byrefs a = some d) := by
  by_cases han : a = s.next
  · subst han
    rw [Mem.moveByref_self, Option.some.injEq] at hd
    exact Or.inl ⟨rfl, hd.symm⟩
  · by_cases hav : a = v
    · subst hav
      rw [Mem.moveByref_variable env s c hlt.ne, Option.some.injEq] at hd
      exact Or.inr (Or.inl ⟨rfl, hd.symm⟩)
    · rw [Mem.moveByref_ne env s c hav han] at hd
      exact Or.inr (Or.inr ⟨han, hav, hd⟩)

theorem rep_moveByref (hs : Rep s) (hc : s.byrefs v = some c) (hst : c.storage = .stack) :
    Rep (s.moveByref env v c) := by
  have hlt := hs.byref_lt v c hc
  have hok := hs.byref_ok v c hc
  refine ⟨Nat.succ_pos _, hs.block_null, ?_, ?_, ?_, ?_, hs.block_ok, ?_, ?_, ?_⟩
  · have hpos := hs.next_pos
    have hv : NULL ≠ v := fun h => by
      have := hs.byref_null
      rw [h, hc] at this
      cases this
    rw [Mem.moveByref_ne env s c hv hpos.ne]
    exact hs.byref_null
  · exact fun a d hd => (hs.block_lt a d hd).trans (Nat.lt_succ_self _)
  · intro a d hd
    show a < s.next + 1
    rcases Mem.moveByref_cases hc hlt hd with ⟨rfl, _⟩ | ⟨rfl, _⟩ | ⟨_, _, hd⟩
    · exact Nat.lt_succ_self _
    · exact hlt.trans (Nat.lt_succ_self _)
    · exact (hs.byref_lt a d hd).trans (Nat.lt_succ_self _)
  · intro a d hd
    have hav : a ≠ v := fun h => by
      have := hs.disjoint a d hd
      rw [h, hc] at this
      cases this
    rw [Mem.moveByref_ne env s c hav (hs.block_lt a d hd).ne]
    exact hs.disjoint a d hd
  · intro a d hd
    rcases Mem.moveByref_cases hc hlt hd with ⟨rfl, rfl⟩ | ⟨rfl, rfl⟩ | ⟨_, _, hd⟩
    · exact heapByref_ok env hok _
    · exact hok.forward hst _
    · exact hs.byref_ok a d hd
  · intro a d hd
    show d.byref.forwarding < s.next + 1
    rcases Mem.moveByref_cases hc hlt hd with ⟨_, rfl⟩ | ⟨_, rfl⟩ | ⟨_, _, hd⟩
    · exact Nat.lt_succ_self _
    · exact Nat.lt_succ_self _
    · exact (hs.forwarding_lt a d hd).trans (Nat.lt_succ_self _)
  · intro a b d d' hd hd' hsd hsd' hf
    rcases Mem.moveByref_cases hc hlt hd with ⟨_, rfl⟩ | ⟨rfl, rfl⟩ | ⟨_, _, hd⟩
    · cases hsd
    · rcases Mem.moveByref_cases hc hlt hd' with ⟨_, rfl⟩ | ⟨rfl, _⟩ | ⟨_, _, hd'⟩
      · cases hsd'
      · rfl
      · exact absurd hf.symm (hs.forwarding_lt b d' hd').ne
    · rcases Mem.moveByref_cases hc hlt hd' with ⟨_, rfl⟩ | ⟨_, rfl⟩ | ⟨_, _, hd'⟩
      · cases hsd'
      · exact absurd hf (hs.forwarding_lt a d hd).ne
      · exact hs.forwarding_inj a b d d' hd hd' hsd hsd' hf

theorem history_byrefBirth (r : Ref) (src a : Addr) (c : ByrefCell) :
    history r (byrefBirth src a c) = if r = .byref a then byrefBirth src a c else [] := by
  unfold byrefBirth
  by_cases hr : r = .byref a
  · subst hr
    rw [if_pos rfl]
    split_ifs <;> simp [history, Event.subject]
  · rw [if_neg hr]
    split_ifs <;> simp [history, Event.subject, Ne.symm hr]

theorem byrefBirth_heapByref (env : Env) (src a : Addr) (c : ByrefCell) :
    byrefBirth src a (heapByref env c.byref a) = byrefBirth src a c := by
  have hflags : (heapByref env c.byref a).byref.flags &&& BLOCK_BYREF_HAS_COPY_DISPOSE =
      c.byref.flags &&& BLOCK_BYREF_HAS_COPY_DISPOSE := heapByrefFlags_other _ (by decide)
  simp only [byrefBirth, hflags]

theorem extends_moveByref (hs : Rep s) (hc : s.byrefs v = some c) (hst : c.storage = .stack)
    (hf : c.byref.forwarding = v) : Extends env none s (s.moveByref env v c) 0 where
  persists := {
    next_le := Nat.le_succ _
    block := fun a d hd => ⟨d.layout.flags, hd, SameMeta.refl _, fun _ => rfl⟩
    byref := fun a d hd => by
      by_cases hav : a = v
      · subst hav
        rw [hc, Option.some.injEq] at hd
        subst hd
        refine Or.inr ⟨hst, hf, s.next, le_rfl,
          Mem.moveByref_variable env s c (hs.byref_lt a c hc).ne, ?_⟩
        exact ⟨heapByrefFlags c.byref.flags, Mem.moveByref_self env s a c, SameMeta.refl _⟩
      · refine Or.inl ⟨d.byref.flags, ?_, SameMeta.refl _, fun _ => rfl⟩
        rw [Mem.moveByref_ne env s c hav (hs.byref_lt a d hd).ne, hd]
        rfl }
  mallocs_le := Nat.le_succ _
  block_old a _ := by
    show history _ (s.trace ++ byrefBirth v s.next c) = _
    rw [history_append, history_byrefBirth, if_neg (by simp), List.append_nil]
  block_new a d hd hd' := by
    have hd'' : s.blocks a = some d := hd'
    rw [hd] at hd''
    cases hd''
  byref_old a ha := by
    show history _ (s.trace ++ byrefBirth v s.next c) = _
    have han : a ≠ s.next := fun h => by
      subst h
      rcases ha with ha | ha
      · obtain ⟨d, hd⟩ := Option.ne_none_iff_exists'.1 ha
        exact Nat.lt_irrefl _ (hs.byref_lt _ d hd)
      · rw [Mem.moveByref_self] at ha
        cases ha
    rw [history_append, history_byrefBirth, if_neg (by simp [han]), List.append_nil]
  byref_new a d hd hd' := by
    rcases Mem.moveByref_cases hc (hs.byref_lt v c hc) hd' with ⟨rfl, rfl⟩ | ⟨rfl, _⟩ | ⟨_, _, hd'⟩
    · refine ⟨le_rfl, heapByref_live env (hs.byref_ok v c hc) hst _, v, c, hc, hst, hf,
        Mem.moveByref_variable env s c (hs.byref_lt v c hc).ne, ?_⟩
      show history _ (s.trace ++ byrefBirth v s.next c) = _
      rw [history_append, history_byrefBirth, if_pos rfl, byrefBirth_heapByref]
    · rw [hc] at hd
      cases hd
    · rw [hd] at hd'
      cases hd'
  object o := by
    show history _ (s.trace ++ byrefBirth v s.next c) = _
    rw [history_append, history_byrefBirth, if_neg (by simp)]
    simp

/-- The heap copy has no owner yet: it is referred to by the variable and by
the pending result. -/
theorem graphOf_moveByref (hs : Rep s) (hc : s.byrefs v = some c) (hst : c.storage = .stack) :
    graphOf (s.moveByref env v c) = (graphOf s).set (.byref s.next) ⟨2, 0⟩ := by
  have hok := hs.byref_ok v c hc
  have hlt := hs.byref_lt v c hc
  have ht : Rep (s.moveByref env v c) := rep_moveByref hs hc hst
  ext1 r
  by_cases hr : r = .byref s.next
  · subst hr
    rw [Graph.node_set_self, graphOf_node, nodeAt_byref (Mem.moveByref_self env s v c)
      (Nat.lt_succ_self _) (heapByref_live env hok hst _)]
    show some (⟨refcount (heapByrefFlags c.byref.flags), 0⟩ : Node Ref) = _
    rw [heapByrefFlags_refcount (hok.stack hst).1]
  · rw [Graph.node_set_ne _ _ hr, graphOf_node, graphOf_node]
    cases r with
    | block a => rw [hs.nodeAt_block, ht.nodeAt_block, Mem.moveByref]
    | byref a =>
      have han : a ≠ s.next := fun h => hr (by rw [h])
      by_cases hav : a = v
      · subst hav
        rw [nodeAt_byref_dead hc (ByrefCell.not_live_of_stack hst),
          nodeAt_byref_dead (Mem.moveByref_variable env s c hlt.ne)
            (ByrefCell.not_live_of_stack hst)]
      · rw [hs.nodeAt_byref, ht.nodeAt_byref, Mem.moveByref_ne env s c hav han]
    | object o => rfl

/-- The variable now holds a reference to its heap copy. -/
theorem scopeRefs_moveByref (hs : Rep s) (hc : s.byrefs v = some c) (hst : c.storage = .stack)
    (hf : c.byref.forwarding = v) (hv : v ∈ scope) :
    scopeRefs (s.moveByref env v c) scope = .byref s.next ::ₘ scopeRefs s scope := by
  have hlt := hs.byref_lt v c hc
  have hrest : scopeRefs (s.moveByref env v c) (scope.erase v) = scopeRefs s (scope.erase v) := by
    refine Finset.sum_congr rfl fun a ha => ?_
    have hav := Finset.ne_of_mem_erase ha
    unfold scopeRef
    by_cases han : a = s.next
    · subst han
      rw [Mem.moveByref_self]
      simp [hs.byref_next, heapByref]
    · rw [Mem.moveByref_ne env s c hav han]
  rw [scopeRefs_erase _ hv, scopeRefs_erase s hv, hrest, scopeRef_unmoved hc hf, zero_add,
    scopeRef_moved (Mem.moveByref_variable env s c hlt.ne) hst hlt.ne']
  rfl

/-- A variable that is still on the stack is copied by moving it. -/
theorem copied_move {x : Capture} (hs : Rep s) (hx : x.kind.isByref) (hxv : x.value = v)
    (hc : s.byrefs v = some c) (hst : c.storage = .stack) (hf : c.byref.forwarding = v)
    (hv : v ∈ scope) (hmalloc : env.mallocOk s.mallocs = true) :
    Copied env s₀ scope none s (s.moveByref env v c) [x] [{ x with value := s.next }] [] 0 [v] 0
    where
  rep := rep_moveByref hs hc hst
  frame := extends_moveByref hs hc hst hf
  grows := by
    have hnone : (graphOf s).node (.byref s.next) = none := nodeAt_byref_none hs.byref_next
    have howned : ownedRefs [{ x with value := s.next }] = {.byref s.next} := by
      rcases hx with hx | hx <;> simp [ownedRefs, Capture.refs, hx]
    have hbuild : Grows latched (External s) (graphOf s) (0 + scopeRefs s scope)
        ((graphOf s).set (.byref s.next) ⟨1, 0⟩) (.byref s.next ::ₘ scopeRefs s scope) 0 :=
      Grows.build hnone not_false 0
    have hnode := (graphOf s).node_set_self (.byref s.next) ⟨1, 0⟩
    have hacq : Grows latched (External s) ((graphOf s).set (.byref s.next) ⟨1, 0⟩)
        (.byref s.next ::ₘ scopeRefs s scope)
        (((graphOf s).set (.byref s.next) ⟨1, 0⟩).acquire latched (.byref s.next))
        (.byref s.next ::ₘ .byref s.next ::ₘ scopeRefs s scope) 0 := Grows.acquire (by simp)
    rw [Graph.acquire_eq_set hnode (by decide), Graph.set_set] at hacq
    rw [zero_add] at hbuild
    rw [howned, Multiset.singleton_add, graphOf_moveByref hs hc hst,
      scopeRefs_moveByref hs hc hst hf hv]
    exact hbuild.trans hacq
  copy := by
    refine .byref x hx (c := c.forward s.next) ?_ (d := heapByref env c.byref s.next) ?_ rfl .nil
    · rw [hxv]
      exact Mem.moveByref_variable env s c (hs.byref_lt v c hc).ne
    · exact Mem.moveByref_self env s v c
  made_lt := List.Pairwise.nil
  made_range a ha := by cases ha
  made_all a d hs' ht _ := by
    have ht' : s.blocks a = some d := ht
    rw [hs'] at ht'
    cases ht'
  moved_nodup := List.nodup_singleton v
  moved_iff a := by
    have hlt := hs.byref_lt v c hc
    rw [List.mem_singleton]
    refine ⟨fun h => ?_, fun h => ?_⟩
    · subst h
      exact ⟨c, hc, hst, hf, s.next, hlt.ne', Mem.moveByref_variable env s c hlt.ne⟩
    · obtain ⟨d, hd, _, hdf, p, hp, ht⟩ := h
      by_contra hav
      rw [Mem.moveByref_ne env s c hav (hs.byref_lt a d hd).ne, hd, Option.some.injEq] at ht
      rw [ht] at hdf
      exact hp hdf
  moved_reached a ha := by
    rw [List.mem_singleton.1 ha, ← hxv]
    exact .here [x] x List.mem_cons_self hx
  mallocs := rfl
  calls := by
    refine iff_of_true rfl fun k hl hu => ?_
    have hk : k = s.mallocs := by
      have hu' : k < s.mallocs + 1 := hu
      omega
    rw [hk, hmalloc]

end

end

end BlocksRuntime
