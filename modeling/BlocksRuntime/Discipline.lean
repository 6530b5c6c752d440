import BlocksRuntime.Ownership.Cascade
import BlocksRuntime.Ownership.Growth
import BlocksRuntime.Runtime
import Mathlib.Algebra.BigOperators.Group.Multiset.Defs
import Mathlib.Data.Finset.Range
import Mathlib.Data.Finset.Union

/-!
# The ownership discipline

The abstract reading of a memory as an ownership graph, and the conditions
under which the runtime is used.

* `graphOf` keeps the finished heap blocks and the heap `__block` records that
  are not being deallocated.  A block owns what its captured variables refer
  to.  A record owns nothing.
* `External` is what a reference may name without being counted: `NULL`,
  global blocks and objects.
* `scopeRefs` are the references that `__block` variables in scope hold to
  their heap copies.
* `Rep` is the representation invariant, cell by cell.
* `Alive` is the condition under which a block may be copied: a stack block is
  in scope, and all that it captures is alive.
* `Disciplined` puts the parts together.
-/

namespace BlocksRuntime

open Ownership

/-! ## The ownership graph of a memory -/

/-- A finished heap block that is not being deallocated.  `_Block_copy` sets
`isa` last. -/
def BlockCell.Live (c : BlockCell) : Prop :=
  c.storage = .heap ∧ c.layout.isa = .mallocBlock ∧ isDeallocating c.layout.flags = false

instance (c : BlockCell) : Decidable c.Live := by
  unfold BlockCell.Live
  infer_instance

/-- A heap `__block` record that is not being deallocated. -/
def ByrefCell.Live (c : ByrefCell) : Prop :=
  c.storage = .heap ∧ isDeallocating c.byref.flags = false

instance (c : ByrefCell) : Decidable c.Live := by
  unfold ByrefCell.Live
  infer_instance

/-- The reference in a captured variable. -/
def Capture.refs (x : Capture) : Multiset Ref :=
  match x.kind with
  | .plain => 0
  | .object => {.object x.value}
  | .block => {.block x.value}
  | .byref => {.byref x.value}
  | .weakByref => {.byref x.value}

/-- The references in a list of captured variables. -/
def ownedRefs : List Capture → Multiset Ref
  | [] => 0
  | x :: xs => x.refs + ownedRefs xs

theorem ownedRefs_append (xs ys : List Capture) :
    ownedRefs (xs ++ ys) = ownedRefs xs + ownedRefs ys := by
  induction xs with
  | nil => simp [ownedRefs]
  | cons x xs ih => simp [ownedRefs, ih, add_assoc]

theorem ownedRefs_plain {xs : List Capture} (h : ∀ x ∈ xs, x.kind = .plain) :
    ownedRefs xs = 0 := by
  induction xs with
  | nil => rfl
  | cons x xs ih =>
    have hx : x.refs = 0 := by simp [Capture.refs, h x]
    rw [ownedRefs, hx, ih (fun y hy => h y (List.mem_cons_of_mem x hy)), add_zero]

/-- The graph node of a heap block. -/
def blockNode (c : BlockCell) : Node Ref :=
  ⟨refcount c.layout.flags, ownedRefs c.layout.captured⟩

/-- The graph node of a heap `__block` record. -/
def byrefNode (c : ByrefCell) : Node Ref :=
  ⟨refcount c.byref.flags, 0⟩

/-- The node behind a reference. -/
def nodeAt (s : Mem) : Ref → Option (Node Ref)
  | .block a => ((s.blocks a).filter fun c => a < s.next ∧ c.Live).map blockNode
  | .byref a => ((s.byrefs a).filter fun c => a < s.next ∧ c.Live).map byrefNode
  | .object _ => none

/-- The ownership graph of a memory. -/
def graphOf (s : Mem) : Graph Ref where
  node := nodeAt s
  support := ((Finset.range s.next).image Ref.block ∪ (Finset.range s.next).image Ref.byref).filter
    fun r => nodeAt s r ≠ none
  mem_support r := by
    simp only [Finset.mem_filter, Finset.mem_union, Finset.mem_image, Finset.mem_range,
      and_iff_right_iff_imp]
    intro h
    cases r with
    | block a =>
      left
      refine ⟨a, ?_, rfl⟩
      by_contra hlt
      simp [nodeAt, hlt] at h
    | byref a =>
      right
      refine ⟨a, ?_, rfl⟩
      by_contra hlt
      simp [nodeAt, hlt] at h
    | object o => simp [nodeAt] at h

theorem graphOf_node (s : Mem) (r : Ref) : (graphOf s).node r = nodeAt s r := rfl

section Nodes

variable {s : Mem} {a : Addr}

theorem nodeAt_block {c : BlockCell} (h : s.blocks a = some c) (ha : a < s.next)
    (hl : c.Live) : nodeAt s (.block a) = some (blockNode c) := by
  simp [nodeAt, h, ha, hl]

theorem nodeAt_byref {c : ByrefCell} (h : s.byrefs a = some c) (ha : a < s.next)
    (hl : c.Live) : nodeAt s (.byref a) = some (byrefNode c) := by
  simp [nodeAt, h, ha, hl]

theorem nodeAt_block_dead {c : BlockCell} (h : s.blocks a = some c) (hl : ¬c.Live) :
    nodeAt s (.block a) = none := by
  simp [nodeAt, h, hl]

theorem nodeAt_byref_dead {c : ByrefCell} (h : s.byrefs a = some c) (hl : ¬c.Live) :
    nodeAt s (.byref a) = none := by
  simp [nodeAt, h, hl]

theorem nodeAt_block_none (h : s.blocks a = none) : nodeAt s (.block a) = none := by
  simp [nodeAt, h]

theorem nodeAt_byref_none (h : s.byrefs a = none) : nodeAt s (.byref a) = none := by
  simp [nodeAt, h]

/-- The node of a block comes from a live cell. -/
theorem nodeAt_block_some {n : Node Ref} (h : nodeAt s (.block a) = some n) :
    ∃ c, s.blocks a = some c ∧ a < s.next ∧ c.Live ∧ n = blockNode c := by
  simp only [nodeAt, Option.map_eq_some_iff, Option.filter_eq_some_iff, decide_eq_true_eq] at h
  obtain ⟨c, ⟨hc, ha, hl⟩, rfl⟩ := h
  exact ⟨c, hc, ha, hl, rfl⟩

/-- The node of a `__block` record comes from a live cell. -/
theorem nodeAt_byref_some {n : Node Ref} (h : nodeAt s (.byref a) = some n) :
    ∃ c, s.byrefs a = some c ∧ a < s.next ∧ c.Live ∧ n = byrefNode c := by
  simp only [nodeAt, Option.map_eq_some_iff, Option.filter_eq_some_iff, decide_eq_true_eq] at h
  obtain ⟨c, ⟨hc, ha, hl⟩, rfl⟩ := h
  exact ⟨c, hc, ha, hl, rfl⟩

theorem nodeAt_block_congr {t : Mem} (h : t.blocks a = s.blocks a) (hn : t.next = s.next) :
    nodeAt t (.block a) = nodeAt s (.block a) := by
  simp only [nodeAt, h, hn]

theorem nodeAt_byref_congr {t : Mem} (h : t.byrefs a = s.byrefs a) (hn : t.next = s.next) :
    nodeAt t (.byref a) = nodeAt s (.byref a) := by
  simp only [nodeAt, h, hn]

/-- A store into a block changes no other node. -/
theorem nodeAt_block_frame {t : Mem} {r : Ref} (hr : r ≠ .block a)
    (hblocks : ∀ b, b ≠ a → t.blocks b = s.blocks b) (hbyrefs : t.byrefs = s.byrefs)
    (hn : t.next = s.next) : nodeAt t r = nodeAt s r := by
  cases r with
  | block b => exact nodeAt_block_congr (hblocks b fun h => hr (by rw [h])) hn
  | byref b => exact nodeAt_byref_congr (by rw [hbyrefs]) hn
  | object o => rfl

/-- A store into a `__block` record changes no other node. -/
theorem nodeAt_byref_frame {t : Mem} {r : Ref} (hr : r ≠ .byref a) (hblocks : t.blocks = s.blocks)
    (hbyrefs : ∀ b, b ≠ a → t.byrefs b = s.byrefs b) (hn : t.next = s.next) :
    nodeAt t r = nodeAt s r := by
  cases r with
  | block b => exact nodeAt_block_congr (by rw [hblocks]) hn
  | byref b => exact nodeAt_byref_congr (hbyrefs b fun h => hr (by rw [h])) hn
  | object o => rfl

end Nodes

/-! ## The graph after a store -/

section Stores

variable (s : Mem) {a : Addr}

theorem graphOf_setBlock_live {c : BlockCell} (ha : a < s.next) (hl : c.Live) :
    graphOf (s.setBlock a c) = (graphOf s).set (.block a) (blockNode c) := by
  ext1 r
  by_cases hr : r = .block a
  · subst hr
    rw [Graph.node_set_self]
    exact nodeAt_block (Mem.setBlock_blocks_self s a c) ha hl
  · rw [Graph.node_set_ne _ _ hr]
    exact nodeAt_block_frame hr (fun b => Mem.setBlock_blocks_ne s c) rfl rfl

theorem graphOf_setBlock_dead {c : BlockCell} (hl : ¬c.Live) :
    graphOf (s.setBlock a c) = (graphOf s).erase (.block a) := by
  ext1 r
  by_cases hr : r = .block a
  · subst hr
    rw [Graph.node_erase_self]
    exact nodeAt_block_dead (Mem.setBlock_blocks_self s a c) hl
  · rw [Graph.node_erase_ne _ hr]
    exact nodeAt_block_frame hr (fun b => Mem.setBlock_blocks_ne s c) rfl rfl

theorem graphOf_eraseBlock : graphOf (s.eraseBlock a) = (graphOf s).erase (.block a) := by
  ext1 r
  by_cases hr : r = .block a
  · subst hr
    rw [Graph.node_erase_self]
    exact nodeAt_block_none (Mem.eraseBlock_blocks_self s a)
  · rw [Graph.node_erase_ne _ hr]
    exact nodeAt_block_frame hr (fun b => Mem.eraseBlock_blocks_ne s) rfl rfl

theorem graphOf_setByref_live {c : ByrefCell} (ha : a < s.next) (hl : c.Live) :
    graphOf (s.setByref a c) = (graphOf s).set (.byref a) (byrefNode c) := by
  ext1 r
  by_cases hr : r = .byref a
  · subst hr
    rw [Graph.node_set_self]
    exact nodeAt_byref (Mem.setByref_byrefs_self s a c) ha hl
  · rw [Graph.node_set_ne _ _ hr]
    exact nodeAt_byref_frame hr rfl (fun b => Mem.setByref_byrefs_ne s c) rfl

theorem graphOf_setByref_dead {c : ByrefCell} (hl : ¬c.Live) :
    graphOf (s.setByref a c) = (graphOf s).erase (.byref a) := by
  ext1 r
  by_cases hr : r = .byref a
  · subst hr
    rw [Graph.node_erase_self]
    exact nodeAt_byref_dead (Mem.setByref_byrefs_self s a c) hl
  · rw [Graph.node_erase_ne _ hr]
    exact nodeAt_byref_frame hr rfl (fun b => Mem.setByref_byrefs_ne s c) rfl

theorem graphOf_eraseByref : graphOf (s.eraseByref a) = (graphOf s).erase (.byref a) := by
  ext1 r
  by_cases hr : r = .byref a
  · subst hr
    rw [Graph.node_erase_self]
    exact nodeAt_byref_none (Mem.eraseByref_byrefs_self s a)
  · rw [Graph.node_erase_ne _ hr]
    exact nodeAt_byref_frame hr rfl (fun b => Mem.eraseByref_byrefs_ne s) rfl

@[simp] theorem graphOf_log (e : Event) : graphOf (s.log e) = graphOf s := rfl

end Stores

/-! ## References that are not counted -/

/-- What a reference may name without being counted. -/
def External (s : Mem) : Ref → Prop
  | .block a => a = NULL ∨ ∃ c, s.blocks a = some c ∧ c.storage = .global
  | .byref _ => False
  | .object _ => True

/-- The reference that the `__block` variable `v` holds to its heap copy. -/
def scopeRef (s : Mem) (v : Addr) : Multiset Ref :=
  match s.byrefs v with
  | some c =>
    if c.storage = .stack ∧ c.byref.forwarding ≠ v then {.byref c.byref.forwarding} else 0
  | none => 0

/-- The references that the variables in scope hold. -/
def scopeRefs (s : Mem) (scope : Finset Addr) : Multiset Ref :=
  ∑ v ∈ scope, scopeRef s v

/-! ## The representation invariant -/

/-- The flags values that the helpers of `__block` records generate. -/
def byrefHelperFlags : List Flags := [0x83, 0x87, 0x93, 0x97]

/-- The flags, the `isa` and the descriptor of a block fit its storage and its
variables. -/
structure BlockCell.Ok (a : Addr) (c : BlockCell) : Prop where
  needsFree : c.layout.flags &&& BLOCK_NEEDS_FREE ≠ 0 ↔ c.storage = .heap
  isGlobal : c.layout.flags &&& BLOCK_IS_GLOBAL ≠ 0 ↔ c.storage = .global
  isa : c.storage ≠ .heap → c.layout.isa ≠ .mallocBlock
  plain : c.storage = .global → ∀ x ∈ c.layout.captured, x.kind = .plain
  helpers : c.layout.flags &&& BLOCK_HAS_COPY_DISPOSE = 0 →
    ∀ x ∈ c.layout.captured, x.kind = .plain
  descriptor : c.layout.flags &&& BLOCK_HAS_COPY_DISPOSE ≠ 0 → 4 ≤ c.layout.descriptor.length
  /-- The blocks that a literal captures were created before it. -/
  older : c.storage = .stack → ∀ x ∈ c.layout.captured, x.kind = .block → x.value < a

theorem BlockCell.Ok.not_needsFree {a : Addr} {c : BlockCell} (hok : c.Ok a)
    (hst : c.storage = .stack) : ¬(c.layout.flags &&& BLOCK_NEEDS_FREE ≠ 0) := fun h => by
  have hheap := hok.needsFree.1 h
  rw [hst] at hheap
  cases hheap

theorem BlockCell.Ok.not_isGlobal {a : Addr} {c : BlockCell} (hok : c.Ok a)
    (hst : c.storage = .stack) : ¬(c.layout.flags &&& BLOCK_IS_GLOBAL ≠ 0) := fun h => by
  have hglobal := hok.isGlobal.1 h
  rw [hst] at hglobal
  cases hglobal

/-- The helpers of a `__block` record handle its one field. -/
structure BlockByref2.Ok (words : List Word) (h : BlockByref2) : Prop where
  keep : ∃ field flags, h.byrefKeep = .assign field flags ∧ flags ∈ byrefHelperFlags ∧
    field < words.length
  destroy : ∃ field flags, h.byrefDestroy = .dispose field flags ∧ flags ∈ byrefHelperFlags ∧
    field < words.length

/-- The flags, the forwarding pointer and the helpers of a `__block` record fit its
storage and its words. -/
structure ByrefCell.Ok (a : Addr) (c : ByrefCell) : Prop where
  needsFree : c.byref.flags &&& BLOCK_BYREF_NEEDS_FREE ≠ 0 ↔ c.storage = .heap
  notGlobal : c.storage ≠ .global
  stack : c.storage = .stack → refcount c.byref.flags = 0 ∧ isDeallocating c.byref.flags = false
  heap : c.storage = .heap → c.byref.forwarding = a
  byref2 : c.byref.flags &&& BLOCK_BYREF_HAS_COPY_DISPOSE ≠ 0 ↔ c.byref.byref2.isSome
  helpers : ∀ h, c.byref.byref2 = some h → h.Ok c.byref.storage

/-- The representation invariant of a memory. -/
structure Rep (s : Mem) : Prop where
  next_pos : 0 < s.next
  block_null : s.blocks NULL = none
  byref_null : s.byrefs NULL = none
  block_lt : ∀ a c, s.blocks a = some c → a < s.next
  byref_lt : ∀ a c, s.byrefs a = some c → a < s.next
  disjoint : ∀ a c, s.blocks a = some c → s.byrefs a = none
  block_ok : ∀ a c, s.blocks a = some c → c.Ok a
  byref_ok : ∀ a c, s.byrefs a = some c → c.Ok a
  forwarding_lt : ∀ a c, s.byrefs a = some c → c.byref.forwarding < s.next
  /-- A heap record is the copy of one variable only. -/
  forwarding_inj : ∀ v w c d, s.byrefs v = some c → s.byrefs w = some d →
    c.storage = .stack → d.storage = .stack → c.byref.forwarding = d.byref.forwarding → v = w

/-- Under the representation invariant the bound in `nodeAt` is redundant. -/
theorem Rep.nodeAt_block {s : Mem} (hs : Rep s) (a : Addr) :
    nodeAt s (.block a) = ((s.blocks a).filter fun c => c.Live).map blockNode := by
  cases hc : s.blocks a with
  | none => simp [nodeAt, hc]
  | some c => simp [nodeAt, hc, hs.block_lt a c hc]

theorem Rep.nodeAt_byref {s : Mem} (hs : Rep s) (a : Addr) :
    nodeAt s (.byref a) = ((s.byrefs a).filter fun c => c.Live).map byrefNode := by
  cases hc : s.byrefs a with
  | none => simp [nodeAt, hc]
  | some c => simp [nodeAt, hc, hs.byref_lt a c hc]

/-- The graph is determined by the records. -/
theorem Rep.graphOf_congr {s t : Mem} (hs : Rep s) (ht : Rep t) (hb : t.blocks = s.blocks)
    (hy : t.byrefs = s.byrefs) : graphOf t = graphOf s := by
  ext1 r
  rw [graphOf_node, graphOf_node]
  cases r with
  | block a => rw [hs.nodeAt_block, ht.nodeAt_block, hb]
  | byref a => rw [hs.nodeAt_byref, ht.nodeAt_byref, hy]
  | object o => rfl

/-! ## Live blocks -/

/-- The record of a `__block` variable that may be used: on the heap, or on
the stack in scope. -/
def AliveByref (s : Mem) (scope : Finset Addr) (p : Addr) : Prop :=
  ∃ c, s.byrefs p = some c ∧ (c.storage = .stack → p ∈ scope) ∧ (c.storage = .heap → c.Live)

/-- A block that may be copied. -/
inductive Alive (s : Mem) (scope : Finset Addr) : Addr → Prop where
  | global (b : Addr) (c : BlockCell) (h : s.blocks b = some c) (hg : c.storage = .global) :
      Alive s scope b
  | heap (b : Addr) (c : BlockCell) (h : s.blocks b = some c) (hl : c.Live) : Alive s scope b
  | stack (b : Addr) (c : BlockCell) (h : s.blocks b = some c) (hs : c.storage = .stack)
      (hscope : b ∈ scope)
      (hblock : ∀ x ∈ c.layout.captured, x.kind = .block → x.value ≠ NULL → Alive s scope x.value)
      (hbyref : ∀ x ∈ c.layout.captured, x.kind = .byref ∨ x.kind = .weakByref →
        AliveByref s scope x.value) :
      Alive s scope b

/-- The counting discipline of a memory: the pending references are those of
the variables in scope and those in `w`. -/
def Counted (s : Mem) (scope : Finset Addr) (w : Multiset Ref) : Prop :=
  Sound latched (External s) (graphOf s) (scopeRefs s scope + w)

/-- A memory used according to the ownership discipline, between two calls.
`w` are the references that the client holds. -/
structure Disciplined (s : Mem) (scope : Finset Addr) (w : Multiset Ref) : Prop where
  rep : Rep s
  counted : Counted s scope w
  positive : Positive (graphOf s)
  settled_block : ∀ a c, s.blocks a = some c → c.storage = .heap → c.Live
  settled_byref : ∀ a c, s.byrefs a = some c → c.storage = .heap → c.Live

end BlocksRuntime
