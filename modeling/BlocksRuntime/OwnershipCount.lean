import BlocksRuntime.Client

/-!
# The count of a heap record

At every point of a run, the count of a heap block or of a heap `__block`
record is the number of the references to it, unless it has latched.

* `Client.references` counts the references: those that the program holds,
  those in captured variables of heap blocks, and those of the variables in
  scope.
* `heapFlags` is the flags word of a heap record.
* `Transition.stays_latched` says that a latched record is never freed.
-/

namespace BlocksRuntime

open Ownership

/-- The number of captured variables of heap blocks that refer to `r`. -/
def ownedBy (s : Mem) (r : Ref) : Nat :=
  ∑ a ∈ Finset.range s.next,
    match s.blocks a with
    | some c => if c.storage = .heap then (ownedRefs c.layout.captured).count r else 0
    | none => 0

/-- The number of references to `r`. -/
def Client.references (s : Client) (r : Ref) : Nat :=
  s.held.count r + ownedBy s.mem r + (scopeRefs s.mem s.scope).count r

/-- The flags word of a heap record. -/
def heapFlags (s : Mem) : Ref → Option Flags
  | .block a => ((s.blocks a).filter fun c => c.storage = .heap).map fun c => c.layout.flags
  | .byref a => ((s.byrefs a).filter fun c => c.storage = .heap).map fun c => c.byref.flags
  | .object _ => none

section

variable {env : Env} {m : Mem} {s t : Client} {scope : Finset Addr} {w : Multiset Ref} {o : Ref}
  {op : Op} {res : Option Word}

/-! ## The graph counts what is in the memory -/

/-- A heap record between two operations is a node of the ownership graph. -/
theorem Disciplined.node_of_heapFlags (hd : Disciplined m scope w) {v : Flags}
    (h : heapFlags m o = some v) :
    isDeallocating v = false ∧ ∃ n, (graphOf m).node o = some n ∧ n.count = refcount v := by
  cases o with
  | block a =>
    simp only [heapFlags, Option.map_eq_some_iff, Option.filter_eq_some_iff,
      decide_eq_true_eq] at h
    obtain ⟨c, ⟨hc, hheap⟩, rfl⟩ := h
    have hl := hd.settled_block a c hc hheap
    exact ⟨hl.2.2, _, nodeAt_block hc (hd.rep.block_lt a c hc) hl, rfl⟩
  | byref a =>
    simp only [heapFlags, Option.map_eq_some_iff, Option.filter_eq_some_iff,
      decide_eq_true_eq] at h
    obtain ⟨c, ⟨hc, hheap⟩, rfl⟩ := h
    have hl := hd.settled_byref a c hc hheap
    exact ⟨hl.2, _, nodeAt_byref hc (hd.rep.byref_lt a c hc) hl, rfl⟩
  | object o => cases h

theorem heapFlags_of_node {n : Node Ref} (h : (graphOf m).node o = some n) :
    ∃ v, heapFlags m o = some v ∧ refcount v = n.count := by
  cases o with
  | block a =>
    obtain ⟨c, hc, _, hl, rfl⟩ := nodeAt_block_some h
    exact ⟨c.layout.flags, by simp [heapFlags, hc, Option.filter, hl.1], rfl⟩
  | byref a =>
    obtain ⟨c, hc, _, hl, rfl⟩ := nodeAt_byref_some h
    exact ⟨c.byref.flags, by simp [heapFlags, hc, Option.filter, hl.1], rfl⟩
  | object o => cases h

/-- What a block owns in the ownership graph. -/
theorem Disciplined.owns_block (hd : Disciplined m scope w) (a : Addr) :
    ((graphOf m).owns (.block a)).count o =
      match m.blocks a with
      | some c => if c.storage = .heap then (ownedRefs c.layout.captured).count o else 0
      | none => 0 := by
  cases hc : m.blocks a with
  | none => rw [Graph.owns_of_none (nodeAt_block_none hc), Multiset.count_zero]
  | some c =>
    by_cases hheap : c.storage = .heap
    · rw [Graph.owns_of_node
        (nodeAt_block hc (hd.rep.block_lt a c hc) (hd.settled_block a c hc hheap))]
      simp only [if_pos hheap]
      rfl
    · rw [Graph.owns_of_none (nodeAt_block_dead hc (BlockCell.not_live_of_ne_heap hheap))]
      simp only [if_neg hheap, Multiset.count_zero]

theorem owns_byref (m : Mem) (a : Addr) : (graphOf m).owns (.byref a) = 0 := by
  cases hn : (graphOf m).node (.byref a) with
  | none => exact Graph.owns_of_none hn
  | some n =>
    obtain ⟨c, _, _, _, rfl⟩ := nodeAt_byref_some hn
    exact Graph.owns_of_node hn

theorem Disciplined.inRefs_eq (hd : Disciplined m scope w) (o : Ref) :
    (graphOf m).inRefs o = ownedBy m o := by
  have hcover : (graphOf m).support ⊆
      (Finset.range m.next).image Ref.block ∪ (Finset.range m.next).image Ref.byref :=
    Finset.filter_subset _ _
  have hdisj : Disjoint ((Finset.range m.next).image Ref.block)
      ((Finset.range m.next).image Ref.byref) := by
    rw [Finset.disjoint_left]
    intro r hr hr'
    obtain ⟨a, _, rfl⟩ := Finset.mem_image.1 hr
    obtain ⟨b, _, hb⟩ := Finset.mem_image.1 hr'
    cases hb
  have hbyref : ∑ a ∈ Finset.range m.next, ((graphOf m).owns (.byref a)).count o = 0 :=
    Finset.sum_eq_zero fun a _ => by rw [owns_byref, Multiset.count_zero]
  rw [Graph.inRefs_eq_sum _ hcover, Finset.sum_union hdisj,
    Finset.sum_image fun a _ b _ h => Ref.block.inj h,
    Finset.sum_image fun a _ b _ h => Ref.byref.inj h, hbyref, add_zero]
  exact Finset.sum_congr rfl fun a _ => hd.owns_block a

theorem Disciplined.refs_eq (hd : Disciplined s.mem s.scope s.held) (o : Ref) :
    (graphOf s.mem).refs (scopeRefs s.mem s.scope + s.held) o = s.references o := by
  rw [Graph.refs, hd.inRefs_eq, Multiset.count_add, Client.references]
  omega

/-! ## Latched records -/

/-- A record whose count has latched stays, with the same count. -/
theorem Transition.stays_latched (hd : Disciplined s.mem s.scope s.held)
    (ht : Transition env s op res t)
    (h : ∃ n, (graphOf s.mem).node o = some n ∧ n.count = latched) :
    ∃ n, (graphOf t.mem).node o = some n ∧ n.count = latched := by
  obtain ⟨n, hn, hc⟩ := id h
  cases ht with
  | block c scope _ hok hst _ =>
    rw [graphOf_newBlock hd.rep hok hst]
    exact h
  | declare r hr =>
    rw [graphOf_newByref hd.rep hr]
    exact h
  | grow _ hcopied =>
    obtain ⟨n', hn', _⟩ := hcopied.grows.node hn
    have hsound : Sound latched (External s.mem) (graphOf s.mem)
        (scopeRefs s.mem s.scope + s.held) := hd.counted
    obtain ⟨_, _, hcount⟩ := (hcopied.grows.frame s.held).count latched_pos hsound o
    have hmin := hcount (by simp [hn'])
    simp only [Graph.count, hn, hn', hc] at hmin
    exact ⟨n', hn', by omega⟩
  | shrink _ hr _ _ =>
    obtain ⟨f, hdr, _⟩ := hr
    exact ⟨n, hdr.node_latched hn hc, hc⟩
  | read => exact h
  | write p i value _ _ hcell _ =>
    rw [graphOf_write hcell]
    exact h

/-- A record whose count has latched is never freed. -/
theorem Run.stays_latched {accesses : List Access} (hmalloc : ∀ k, env.mallocOk k = true)
    (hd : Disciplined s.mem s.scope s.held) (h : Run env s accesses t) {v : Flags}
    (ho : heapFlags s.mem o = some v) (hv : refcount v = latched) :
    ∃ v', heapFlags t.mem o = some v' ∧ refcount v' = latched := by
  obtain ⟨_, n, hn, hc⟩ := hd.node_of_heapFlags ho
  obtain ⟨_, n', hn', hc'⟩ := Run.induct
    (P := fun _ u => ∃ n, (graphOf u.mem).node o = some n ∧ n.count = latched)
    hmalloc hd ⟨n, hn, hc.trans hv⟩ (fun _ _ _ _ _ hd ih ht => ht.stays_latched hd ih) h
  obtain ⟨v', hv', hr⟩ := heapFlags_of_node hn'
  exact ⟨v', hv', hr.trans hc'⟩

/-! ## The result -/

/-- At every point of a run each allowed operation returns, no reference
dangles, and each heap record is not being deallocated and has latched, or has
a count that is the number of the references to it. -/
theorem ownership_count {accesses : List Access} (hmalloc : ∀ k, env.mallocOk k = true)
    (h : Run env .start accesses s) :
    (∀ op : Op, op.Allowed s → ∃ res t, op.run env s = .ok (res, t)) ∧
      (∀ o, 0 < s.references o → heapFlags s.mem o ≠ none ∨ External s.mem o) ∧
      ∀ o v, heapFlags s.mem o = some v → isDeallocating v = false ∧
        ((refcount v = latched ∧ ∀ accesses' t, Run env s accesses' t →
            ∃ v', heapFlags t.mem o = some v' ∧ refcount v' = latched) ∨
          (0 < refcount v ∧ refcount v = s.references o)) := by
  have hd := h.disciplined hmalloc
  refine ⟨fun op ha => ?_, fun o ho => ?_, fun o v hv => ?_⟩
  · obtain ⟨res, t, hrun, _⟩ := Op.run_spec hd hmalloc ha
    exact ⟨res, t, hrun⟩
  · rw [← hd.refs_eq] at ho
    refine (hd.counted.closed o ho).imp (fun hne => ?_) id
    obtain ⟨n, hn⟩ := Option.ne_none_iff_exists'.1 hne
    obtain ⟨v, hv, _⟩ := heapFlags_of_node hn
    simp [hv]
  · obtain ⟨hdealloc, n, hn, hc⟩ := hd.node_of_heapFlags hv
    refine ⟨hdealloc, ?_⟩
    rcases hd.counted.counted o n hn with htop | hrefs
    · have hv' : refcount v = latched := hc.symm.trans htop
      exact Or.inl ⟨hv', fun _ _ h' => h'.stays_latched hmalloc hd hv hv'⟩
    · refine Or.inr ⟨?_, ?_⟩
      · rw [← hc]
        exact hd.positive o n hn
      · rw [← hc, hrefs, hd.refs_eq]

end

theorem ownership_count_nested : copiedClient.held = {.block 4} ∧
    (∀ op : Op, op.Allowed copiedClient → ∃ res t, op.run plentiful copiedClient = .ok (res, t)) ∧
    (∀ o, 0 < copiedClient.references o →
      heapFlags copiedClient.mem o ≠ none ∨ External copiedClient.mem o) ∧
    ∀ o v, heapFlags copiedClient.mem o = some v → isDeallocating v = false ∧
      ((refcount v = latched ∧ ∀ accesses u, Run plentiful copiedClient accesses u →
          ∃ v', heapFlags u.mem o = some v' ∧ refcount v' = latched) ∨
        (0 < refcount v ∧ refcount v = copiedClient.references o)) :=
  ⟨rfl, ownership_count plentiful_mallocOk copied_run⟩

end BlocksRuntime
