import BlocksRuntime.Release

/-!
# Literals and variables

The records that compiled code creates without the runtime.

* `GlobalLiteral`, `StackLiteral` and `VariableRecord` say what compilers
  generate for a global block, a block literal and a `__block` variable.
* `Mem.newBlock` and `Mem.newByref` put such a record at a fresh address.
* `Disciplined.newBlock` and `Disciplined.newByref` say that the ownership
  discipline is kept.
-/

namespace BlocksRuntime

open Ownership

/-! ## What compilers generate -/

/-- A global block.  It captures nothing that needs help. -/
structure GlobalLiteral (b : BlockLayout) : Prop where
  isa : b.isa = .globalBlock
  needsFree : b.flags &&& BLOCK_NEEDS_FREE = 0
  isGlobal : b.flags &&& BLOCK_IS_GLOBAL ≠ 0
  plain : ∀ x ∈ b.captured, x.kind = .plain
  descriptor : b.flags &&& BLOCK_HAS_COPY_DISPOSE ≠ 0 → 4 ≤ b.descriptor.length

/-- A block literal.  It captures blocks that exist already, and it has
helpers if it captures anything that needs help. -/
structure StackLiteral (s : Mem) (b : BlockLayout) : Prop where
  isa : b.isa = .stackBlock
  needsFree : b.flags &&& BLOCK_NEEDS_FREE = 0
  isGlobal : b.flags &&& BLOCK_IS_GLOBAL = 0
  helpers : b.flags &&& BLOCK_HAS_COPY_DISPOSE = 0 → ∀ x ∈ b.captured, x.kind = .plain
  descriptor : b.flags &&& BLOCK_HAS_COPY_DISPOSE ≠ 0 → 4 ≤ b.descriptor.length
  captured : ∀ x ∈ b.captured, x.kind = .block → x.value < s.next

/-- The record of a `__block` variable. -/
structure VariableRecord (r : BlockByref) : Prop where
  refcount : refcount r.flags = 0
  dealloc : isDeallocating r.flags = false
  needsFree : r.flags &&& BLOCK_BYREF_NEEDS_FREE = 0
  byref2 : r.flags &&& BLOCK_BYREF_HAS_COPY_DISPOSE ≠ 0 ↔ r.byref2.isSome
  helpers : ∀ h, r.byref2 = some h → h.Ok r.storage

theorem GlobalLiteral.ok {b : BlockLayout} (h : GlobalLiteral b) (a : Addr) :
    (⟨.global, b⟩ : BlockCell).Ok a where
  needsFree := iff_of_false (not_not.2 h.needsFree) (by simp)
  isGlobal := iff_of_true h.isGlobal rfl
  isa _ := by
    show b.isa ≠ _
    rw [h.isa]
    decide
  plain _ := h.plain
  helpers _ := h.plain
  descriptor := h.descriptor
  older hst := by cases hst

theorem StackLiteral.ok {s : Mem} {b : BlockLayout} (h : StackLiteral s b) :
    (⟨.stack, b⟩ : BlockCell).Ok s.next where
  needsFree := iff_of_false (not_not.2 h.needsFree) (by simp)
  isGlobal := iff_of_false (not_not.2 h.isGlobal) (by simp)
  isa _ := by
    show b.isa ≠ _
    rw [h.isa]
    decide
  plain hg := by cases hg
  helpers := h.helpers
  descriptor := h.descriptor
  older _ := h.captured

theorem VariableRecord.ok {r : BlockByref} (h : VariableRecord r) (a : Addr) :
    (⟨.stack, { r with forwarding := a }⟩ : ByrefCell).Ok a where
  needsFree := iff_of_false (not_not.2 h.needsFree) (by simp)
  notGlobal := by simp
  stack _ := ⟨h.refcount, h.dealloc⟩
  heap hst := by cases hst
  byref2 := h.byref2
  helpers := h.helpers

/-! ## Creation -/

/-- The memory of a program before it creates anything. -/
def Mem.empty : Mem where
  blocks _ := none
  byrefs _ := none
  next := 1
  mallocs := 0
  trace := []

/-- Put a block at a fresh address. -/
def Mem.newBlock (s : Mem) (c : BlockCell) : Mem :=
  { s.setBlock s.next c with next := s.next + 1 }

/-- Put the record of a `__block` variable at a fresh address. -/
def Mem.newByref (s : Mem) (r : BlockByref) : Mem :=
  { s.setByref s.next ⟨.stack, { r with forwarding := s.next }⟩ with next := s.next + 1 }

section

variable {s : Mem} {scope : Finset Addr} {w : Multiset Ref} {c : BlockCell} {r : BlockByref}

@[simp] theorem Mem.newBlock_self (s : Mem) (c : BlockCell) :
    (s.newBlock c).blocks s.next = some c := by
  simp [newBlock]

@[simp] theorem Mem.newBlock_ne (s : Mem) (c : BlockCell) {a : Addr} (h : a ≠ s.next) :
    (s.newBlock c).blocks a = s.blocks a := by
  simp [newBlock, h]

@[simp] theorem Mem.newBlock_byrefs (s : Mem) (c : BlockCell) :
    (s.newBlock c).byrefs = s.byrefs := rfl

@[simp] theorem Mem.newByref_self (s : Mem) (r : BlockByref) :
    (s.newByref r).byrefs s.next = some ⟨.stack, { r with forwarding := s.next }⟩ := by
  simp [newByref]

@[simp] theorem Mem.newByref_ne (s : Mem) (r : BlockByref) {a : Addr} (h : a ≠ s.next) :
    (s.newByref r).byrefs a = s.byrefs a := by
  simp [newByref, h]

@[simp] theorem Mem.newByref_blocks (s : Mem) (r : BlockByref) :
    (s.newByref r).blocks = s.blocks := rfl

theorem Rep.block_next (hs : Rep s) : s.blocks s.next = none := by
  by_contra hne
  obtain ⟨d, hd⟩ := Option.ne_none_iff_exists'.1 hne
  exact Nat.lt_irrefl _ (hs.block_lt _ d hd)

theorem Rep.byref_next (hs : Rep s) : s.byrefs s.next = none := by
  by_contra hne
  obtain ⟨d, hd⟩ := Option.ne_none_iff_exists'.1 hne
  exact Nat.lt_irrefl _ (hs.byref_lt _ d hd)

/-- One more address was handed out. -/
theorem Rep.bump (hs : Rep s) : Rep { s with next := s.next + 1 } where
  next_pos := Nat.succ_pos _
  block_null := hs.block_null
  byref_null := hs.byref_null
  block_lt a d hd := (hs.block_lt a d hd).trans (Nat.lt_succ_self _)
  byref_lt a d hd := (hs.byref_lt a d hd).trans (Nat.lt_succ_self _)
  disjoint := hs.disjoint
  block_ok := hs.block_ok
  byref_ok := hs.byref_ok
  forwarding_lt a d hd := (hs.forwarding_lt a d hd).trans (Nat.lt_succ_self _)
  forwarding_inj := hs.forwarding_inj

theorem Rep.newBlock (hs : Rep s) (hok : c.Ok s.next) : Rep (s.newBlock c) :=
  hs.bump.storeBlock (Nat.lt_succ_self _) hs.next_pos.ne' hs.byref_next hok

/-- The records after the creation of a variable. -/
theorem Mem.newByref_cases {a : Addr} {d : ByrefCell} (h : (s.newByref r).byrefs a = some d) :
    (a = s.next ∧ d = ⟨.stack, { r with forwarding := s.next }⟩) ∨ s.byrefs a = some d := by
  by_cases ha : a = s.next
  · subst ha
    rw [Mem.newByref_self, Option.some.injEq] at h
    exact Or.inl ⟨rfl, h.symm⟩
  · rw [Mem.newByref_ne s r ha] at h
    exact Or.inr h

theorem Rep.newByref (hs : Rep s) (hr : VariableRecord r) : Rep (s.newByref r) := by
  refine ⟨Nat.succ_pos _, hs.block_null, ?_, ?_, ?_, ?_, hs.block_ok, ?_, ?_, ?_⟩
  · rw [Mem.newByref_ne s r (a := NULL) hs.next_pos.ne]
    exact hs.byref_null
  · exact fun a d hd => (hs.block_lt a d hd).trans (Nat.lt_succ_self _)
  · intro a d hd
    show a < s.next + 1
    rcases Mem.newByref_cases hd with ⟨rfl, _⟩ | hd
    · exact Nat.lt_succ_self _
    · exact (hs.byref_lt a d hd).trans (Nat.lt_succ_self _)
  · intro a d hd
    rw [Mem.newByref_ne s r (hs.block_lt a d hd).ne]
    exact hs.disjoint a d hd
  · intro a d hd
    rcases Mem.newByref_cases hd with ⟨rfl, rfl⟩ | hd
    · exact hr.ok _
    · exact hs.byref_ok a d hd
  · intro a d hd
    show d.byref.forwarding < s.next + 1
    rcases Mem.newByref_cases hd with ⟨_, rfl⟩ | hd
    · exact Nat.lt_succ_self _
    · exact (hs.forwarding_lt a d hd).trans (Nat.lt_succ_self _)
  · intro a b d d' hd hd' hsd hsd' hf
    rcases Mem.newByref_cases hd with ⟨rfl, rfl⟩ | hd <;>
      rcases Mem.newByref_cases hd' with ⟨rfl, rfl⟩ | hd'
    · rfl
    · exact absurd hf.symm (hs.forwarding_lt b d' hd').ne
    · exact absurd hf (hs.forwarding_lt a d hd).ne
    · exact hs.forwarding_inj a b d d' hd hd' hsd hsd' hf

theorem graphOf_newBlock (hs : Rep s) (hok : c.Ok s.next) (hst : c.storage ≠ .heap) :
    graphOf (s.newBlock c) = graphOf s := by
  have ht := hs.newBlock hok
  ext1 r
  rw [graphOf_node, graphOf_node]
  cases r with
  | block a =>
    by_cases ha : a = s.next
    · subst ha
      rw [nodeAt_block_none hs.block_next,
        nodeAt_block_dead (s.newBlock_self c) (BlockCell.not_live_of_ne_heap hst)]
    · rw [hs.nodeAt_block, ht.nodeAt_block, Mem.newBlock_ne s c ha]
  | byref a => rw [hs.nodeAt_byref, ht.nodeAt_byref, Mem.newBlock_byrefs]
  | object o => rfl

theorem graphOf_newByref (hs : Rep s) (hr : VariableRecord r) :
    graphOf (s.newByref r) = graphOf s := by
  have ht := hs.newByref hr
  ext1 x
  rw [graphOf_node, graphOf_node]
  cases x with
  | block a => rw [hs.nodeAt_block, ht.nodeAt_block, Mem.newByref_blocks]
  | byref a =>
    by_cases ha : a = s.next
    · subst ha
      rw [nodeAt_byref_none hs.byref_next,
        nodeAt_byref_dead (s.newByref_self r) (ByrefCell.not_live_of_stack rfl)]
    · rw [hs.nodeAt_byref, ht.nodeAt_byref, Mem.newByref_ne s r ha]
  | object o => rfl

/-- A new variable has no copy. -/
theorem scopeRef_newByref (hs : Rep s) (v : Addr) : scopeRef (s.newByref r) v = scopeRef s v := by
  by_cases hv : v = s.next
  · subst hv
    rw [scopeRef, scopeRef, Mem.newByref_self, hs.byref_next]
    simp
  · rw [scopeRef, scopeRef, Mem.newByref_ne s r hv]

/-- Something comes into scope, or a block goes out of scope. -/
theorem Counted.congr_scope {scope' : Finset Addr} (hw : Counted s scope w)
    (h : scopeRefs s scope' = scopeRefs s scope) : Counted s scope' w := by
  rw [Counted, h]
  exact hw

theorem scopeRefs_insert {a : Addr} (h : scopeRef s a = 0) :
    scopeRefs s (insert a scope) = scopeRefs s scope :=
  Finset.sum_insert_zero h

theorem scopeRef_of_none {a : Addr} (h : s.byrefs a = none) : scopeRef s a = 0 := by
  simp [scopeRef, h]

theorem Counted.newBlock (hs : Rep s) (hw : Counted s scope w) (hok : c.Ok s.next)
    (hst : c.storage ≠ .heap) : Counted (s.newBlock c) scope w := by
  have hnode : ∀ a, External (s.newBlock c) a → (graphOf s).node a = none := by
    intro x hx
    cases x with
    | block a =>
      rcases hx with rfl | ⟨d, hd, hg⟩
      · exact nodeAt_block_none hs.block_null
      · by_cases ha : a = s.next
        · subst ha
          exact nodeAt_block_none hs.block_next
        · rw [Mem.newBlock_ne s c ha] at hd
          exact nodeAt_block_dead hd (BlockCell.not_live_of_global hg)
    | byref a => exact hx.elim
    | object o => rfl
  have hmono : ∀ x, External s x → External (s.newBlock c) x := by
    intro x hx
    cases x with
    | block a =>
      refine hx.imp id fun ⟨d, hd, hg⟩ => ⟨d, ?_, hg⟩
      rw [Mem.newBlock_ne s c (hs.block_lt a d hd).ne]
      exact hd
    | byref a => exact hx
    | object o => exact hx
  rw [Counted, graphOf_newBlock hs hok hst]
  exact Sound.outer_mono hw hmono hnode

theorem Counted.newByref (hs : Rep s) (hw : Counted s scope w) (hr : VariableRecord r) :
    Counted (s.newByref r) scope w := by
  have hscope : scopeRefs (s.newByref r) scope = scopeRefs s scope :=
    Finset.sum_congr rfl fun v _ => scopeRef_newByref hs v
  rw [Counted, graphOf_newByref hs hr, hscope]
  exact hw

/-! ## The discipline is kept -/

theorem Disciplined.newBlock (hd : Disciplined s scope w) (hok : c.Ok s.next)
    (hst : c.storage ≠ .heap) : Disciplined (s.newBlock c) scope w where
  rep := hd.rep.newBlock hok
  counted := hd.counted.newBlock hd.rep hok hst
  positive := by
    rw [graphOf_newBlock hd.rep hok hst]
    exact hd.positive
  settled_block a d hda hheap := by
    by_cases ha : a = s.next
    · subst ha
      rw [Mem.newBlock_self, Option.some.injEq] at hda
      exact absurd (hda ▸ hheap) hst
    · rw [Mem.newBlock_ne s c ha] at hda
      exact hd.settled_block a d hda hheap
  settled_byref := hd.settled_byref

theorem Disciplined.newByref (hd : Disciplined s scope w) (hr : VariableRecord r) :
    Disciplined (s.newByref r) scope w where
  rep := hd.rep.newByref hr
  counted := hd.counted.newByref hd.rep hr
  positive := by
    rw [graphOf_newByref hd.rep hr]
    exact hd.positive
  settled_block := hd.settled_block
  settled_byref a d hda hheap := by
    rcases Mem.newByref_cases hda with ⟨_, rfl⟩ | hda
    · cases hheap
    · exact hd.settled_byref a d hda hheap

theorem Disciplined.insertScope {a : Addr} (hd : Disciplined s scope w)
    (h : scopeRef s a = 0) : Disciplined s (insert a scope) w :=
  { hd with counted := hd.counted.congr_scope (scopeRefs_insert h) }

/-- A block literal comes into scope. -/
theorem Disciplined.literal {b : BlockLayout} (hd : Disciplined s scope w)
    (hb : StackLiteral s b) :
    Disciplined (s.newBlock ⟨.stack, b⟩) (insert s.next scope) w :=
  (hd.newBlock hb.ok (by simp)).insertScope (scopeRef_of_none hd.rep.byref_next)

/-- A `__block` variable comes into scope. -/
theorem Disciplined.variable (hd : Disciplined s scope w) (hr : VariableRecord r) :
    Disciplined (s.newByref r) (insert s.next scope) w :=
  (hd.newByref hr).insertScope
    ((scopeRef_newByref hd.rep s.next).trans (scopeRef_of_none hd.rep.byref_next))

theorem disciplined_empty : Disciplined Mem.empty ∅ 0 where
  rep := by
    constructor <;> simp [Mem.empty]
  counted := by
    have hnode : ∀ r, (graphOf Mem.empty).node r = none := by
      intro r
      cases r <;> rfl
    have hrefs : ∀ r, (graphOf Mem.empty).refs (scopeRefs Mem.empty ∅ + 0) r = 0 := by
      intro r
      rw [Graph.refs, Graph.inRefs]
      simp [scopeRefs, Graph.owns_of_none (hnode _)]
    refine ⟨fun r hr => ?_, fun r _ => hnode r, fun r n hn => ?_, fun r n hn => ?_⟩
    · rw [hrefs] at hr
      cases hr
    · rw [hnode] at hn
      cases hn
    · rw [hnode] at hn
      cases hn
  positive r n hn := by
    cases r <;> cases hn
  settled_block a c hc := by cases hc
  settled_byref a c hc := by cases hc

end

/-! ## A small program

A `__block` variable, a block literal that captures it, and a literal that
captures that block, the variable, a number and an object. -/

def counterRecord : BlockByref where
  isa := .nil
  forwarding := NULL
  flags := 0
  size := 32
  byref2 := none
  storage := [10]

def innerLiteral : BlockLayout where
  isa := .stackBlock
  flags := BLOCK_HAS_COPY_DISPOSE
  reserved := 0
  invoke := 100
  descriptor := [0, 40, 101, 102]
  captured := [⟨.byref, 1⟩]

def outerLiteral : BlockLayout where
  isa := .stackBlock
  flags := BLOCK_HAS_COPY_DISPOSE
  reserved := 0
  invoke := 200
  descriptor := [0, 64, 201, 202]
  captured := [⟨.plain, 7⟩, ⟨.block, 2⟩, ⟨.byref, 1⟩, ⟨.object, 50⟩]

def nested : Mem :=
  ((Mem.empty.newByref counterRecord).newBlock ⟨.stack, innerLiteral⟩).newBlock
    ⟨.stack, outerLiteral⟩

/-- An environment in which `malloc` succeeds. -/
def plentiful : Env where
  mallocOk _ := true
  junk _ := 0

theorem plentiful_mallocOk (k : Nat) : plentiful.mallocOk k = true := rfl

theorem counterRecord_ok : VariableRecord counterRecord where
  refcount := by decide
  dealloc := by decide
  needsFree := by decide
  byref2 := by decide
  helpers h hh := by cases hh

theorem nested_disciplined : Disciplined nested {3, 2, 1} 0 := by
  have hcounter := disciplined_empty.variable counterRecord_ok
  have hinner := hcounter.literal (b := innerLiteral)
    ⟨rfl, by decide, by decide, by decide, by decide, by decide⟩
  exact hinner.literal (b := outerLiteral)
    ⟨rfl, by decide, by decide, by decide, by decide, by decide⟩

theorem nested_alive : Alive nested {3, 2, 1} 3 := by
  have hcounter : AliveByref nested {3, 2, 1} 1 :=
    ⟨⟨.stack, { counterRecord with forwarding := 1 }⟩, rfl, by simp, by simp⟩
  have hinner : Alive nested {3, 2, 1} 2 := by
    refine .stack 2 ⟨.stack, innerLiteral⟩ rfl rfl (by simp) ?_ ?_
    · simp [innerLiteral]
    · simpa [innerLiteral] using hcounter
  refine .stack 3 ⟨.stack, outerLiteral⟩ rfl rfl (by simp) ?_ ?_
  · simpa [outerLiteral] using fun _ => hinner
  · simpa [outerLiteral] using hcounter

end BlocksRuntime
