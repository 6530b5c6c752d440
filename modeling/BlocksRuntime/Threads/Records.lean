import BlocksRuntime.Release

/-!
# The records that threads share

One view for heap blocks and for `__block` records on the heap.  A destroy
helper may release the block that its variable holds, so a record owns
references here as a block does, and ownership may have cycles.

* `HeapRecord` is what reference counting sees of a record: where it lives, its
  flags word, and the references that its helper gives up.
* `Mem.setWord` and `Mem.eraseRecord` are the two stores of a release.
* `sharedGraph` is the ownership graph of a memory, and each store has one
  lemma about it.
-/

namespace BlocksRuntime.Threads

open Ownership

/-! ## Records -/

/-- The references that the destroy helper of a `__block` record gives up. -/
def ownedByByref (b : BlockByref) : Multiset Ref :=
  match b.byref2 with
  | none => 0
  | some byref2 =>
    match byref2.byrefDestroy with
    | .dispose _ _ => 0
    | .release field => {.block (b.storage.getD field NULL)}

@[ext] structure HeapRecord where
  storage : Storage
  word : Flags
  owns : Multiset Ref

def blockRecord (c : BlockCell) : HeapRecord :=
  ⟨c.storage, c.layout.flags, ownedRefs c.layout.captured⟩

def byrefRecord (c : ByrefCell) : HeapRecord :=
  ⟨c.storage, c.byref.flags, ownedByByref c.byref⟩

def recordAt (s : Mem) : Ref → Option HeapRecord
  | .block a => (s.blocks a).map blockRecord
  | .byref a => (s.byrefs a).map byrefRecord
  | .object _ => none

/-- A heap record that has not got its verdict. -/
def HeapRecord.Live (x : HeapRecord) : Prop :=
  x.storage = .heap ∧ isDeallocating x.word = false

/-- A record that has got its verdict and is not freed yet. -/
def HeapRecord.Dying (x : HeapRecord) : Prop :=
  x.storage = .heap ∧ isDeallocating x.word = true

instance (x : HeapRecord) : Decidable x.Live := by
  unfold HeapRecord.Live
  infer_instance

/-- The record as a node of the ownership graph. -/
def HeapRecord.node (x : HeapRecord) : Node Ref := ⟨refcount x.word, x.owns⟩

theorem HeapRecord.Live.not_dying {x : HeapRecord} (h : x.Live) : ¬x.Dying := fun hd => by
  have hbit := h.2
  rw [hd.2] at hbit
  cases hbit

/-- A record on the heap is live or dying. -/
theorem HeapRecord.live_or_dying {x : HeapRecord} (h : x.storage = .heap) : x.Live ∨ x.Dying := by
  cases hbit : isDeallocating x.word with
  | false => exact Or.inl ⟨h, hbit⟩
  | true => exact Or.inr ⟨h, hbit⟩

/-- The address in a reference. -/
def addrOf : Ref → Addr
  | .block a => a
  | .byref a => a
  | .object o => o

/-! ## Stores -/

/-- Another flags word in a record. -/
def Mem.setWord (s : Mem) (r : Ref) (w : Flags) : Mem :=
  match r with
  | .block a =>
    match s.blocks a with
    | some c => s.setBlock a (c.withFlags w)
    | none => s
  | .byref a =>
    match s.byrefs a with
    | some c => s.setByref a (c.withFlags w)
    | none => s
  | .object _ => s

def Mem.eraseRecord (s : Mem) : Ref → Mem
  | .block a => s.eraseBlock a
  | .byref a => s.eraseByref a
  | .object _ => s

/-- A memory with the same records. -/
structure SameCells (s t : Mem) : Prop where
  blocks : t.blocks = s.blocks
  byrefs : t.byrefs = s.byrefs
  next : t.next = s.next

theorem SameCells.refl (s : Mem) : SameCells s s := ⟨rfl, rfl, rfl⟩

theorem SameCells.log (s : Mem) (e : Event) : SameCells s (s.log e) := ⟨rfl, rfl, rfl⟩

section

variable {s t : Mem} {r q : Ref} {x : HeapRecord} {w : Flags}

theorem SameCells.recordAt (h : SameCells s t) : recordAt t = recordAt s := by
  funext r
  cases r with
  | block a => rw [Threads.recordAt, h.blocks, Threads.recordAt]
  | byref a => rw [Threads.recordAt, h.byrefs, Threads.recordAt]
  | object o => rfl

theorem recordAt_setWord_self (hx : recordAt s r = some x) :
    recordAt (Mem.setWord s r w) r = some { x with word := w } := by
  cases r with
  | block a =>
    obtain ⟨c, hc, rfl⟩ := Option.map_eq_some_iff.1 hx
    simp [Mem.setWord, hc, recordAt, blockRecord, BlockCell.withFlags]
  | byref a =>
    obtain ⟨c, hc, rfl⟩ := Option.map_eq_some_iff.1 hx
    simp [Mem.setWord, hc, recordAt, byrefRecord, ByrefCell.withFlags, ownedByByref]
  | object o => cases hx

theorem recordAt_setWord_ne (hq : q ≠ r) : recordAt (Mem.setWord s r w) q = recordAt s q := by
  cases r with
  | block a =>
    cases hc : s.blocks a with
    | none => simp [Mem.setWord, hc]
    | some c =>
      cases q with
      | block b =>
        have hba : b ≠ a := fun h => hq (by rw [h])
        simp [Mem.setWord, hc, recordAt, hba]
      | byref b => simp [Mem.setWord, hc, recordAt]
      | object o => rfl
  | byref a =>
    cases hc : s.byrefs a with
    | none => simp [Mem.setWord, hc]
    | some c =>
      cases q with
      | block b => simp [Mem.setWord, hc, recordAt]
      | byref b =>
        have hba : b ≠ a := fun h => hq (by rw [h])
        simp [Mem.setWord, hc, recordAt, hba]
      | object o => rfl
  | object o => rfl

@[simp] theorem setWord_next (s : Mem) (r : Ref) (w : Flags) :
    (Mem.setWord s r w).next = s.next := by
  cases r with
  | block a => cases hc : s.blocks a <;> simp [Mem.setWord, hc]
  | byref a => cases hc : s.byrefs a <;> simp [Mem.setWord, hc]
  | object o => rfl

@[simp] theorem setWord_trace (s : Mem) (r : Ref) (w : Flags) :
    (Mem.setWord s r w).trace = s.trace := by
  cases r with
  | block a => cases hc : s.blocks a <;> simp [Mem.setWord, hc]
  | byref a => cases hc : s.byrefs a <;> simp [Mem.setWord, hc]
  | object o => rfl

theorem recordAt_erase_self (s : Mem) (r : Ref) : recordAt (Mem.eraseRecord s r) r = none := by
  cases r <;> simp [Mem.eraseRecord, recordAt]

theorem recordAt_erase_ne (hq : q ≠ r) : recordAt (Mem.eraseRecord s r) q = recordAt s q := by
  cases r with
  | block a =>
    cases q with
    | block b =>
      have hba : b ≠ a := fun h => hq (by rw [h])
      simp [Mem.eraseRecord, recordAt, hba]
    | byref b => rfl
    | object o => rfl
  | byref a =>
    cases q with
    | block b => rfl
    | byref b =>
      have hba : b ≠ a := fun h => hq (by rw [h])
      simp [Mem.eraseRecord, recordAt, hba]
    | object o => rfl
  | object o => rfl

@[simp] theorem eraseRecord_next (s : Mem) (r : Ref) : (Mem.eraseRecord s r).next = s.next := by
  cases r <;> rfl

@[simp] theorem eraseRecord_trace (s : Mem) (r : Ref) :
    (Mem.eraseRecord s r).trace = s.trace := by
  cases r <;> rfl

end

/-! ## The ownership graph -/

/-- The live record of a reference, as a node. -/
def sharedNode (s : Mem) (r : Ref) : Option (Node Ref) :=
  ((recordAt s r).filter fun x => addrOf r < s.next ∧ x.Live).map HeapRecord.node

/-- The live records and what they own. -/
def sharedGraph (s : Mem) : Graph Ref where
  node := sharedNode s
  support := ((Finset.range s.next).image Ref.block ∪ (Finset.range s.next).image Ref.byref).filter
    fun r => sharedNode s r ≠ none
  mem_support r := by
    simp only [Finset.mem_filter, Finset.mem_union, Finset.mem_image, Finset.mem_range,
      and_iff_right_iff_imp]
    intro h
    obtain ⟨n, hn⟩ := Option.ne_none_iff_exists'.1 h
    simp only [sharedNode, Option.map_eq_some_iff, Option.filter_eq_some_iff,
      decide_eq_true_eq] at hn
    obtain ⟨x, ⟨hx, hlt, _⟩, _⟩ := hn
    cases r with
    | block a => exact Or.inl ⟨a, hlt, rfl⟩
    | byref a => exact Or.inr ⟨a, hlt, rfl⟩
    | object o => cases hx

section

variable {s t : Mem} {r q : Ref} {x : HeapRecord} {w : Flags} {n : Node Ref}

theorem sharedGraph_node (s : Mem) (r : Ref) : (sharedGraph s).node r = sharedNode s r := rfl

theorem sharedNode_live (hx : recordAt s r = some x) (hlt : addrOf r < s.next) (hl : x.Live) :
    sharedNode s r = some x.node := by
  simp [sharedNode, hx, hlt, hl]

theorem sharedNode_not_live (hx : recordAt s r = some x) (hl : ¬x.Live) :
    sharedNode s r = none := by
  simp [sharedNode, hx, hl]

theorem sharedNode_none (hx : recordAt s r = none) : sharedNode s r = none := by
  simp [sharedNode, hx]

theorem sharedNode_some (h : sharedNode s r = some n) :
    ∃ x, recordAt s r = some x ∧ addrOf r < s.next ∧ x.Live ∧ n = x.node := by
  simp only [sharedNode, Option.map_eq_some_iff, Option.filter_eq_some_iff,
    decide_eq_true_eq] at h
  obtain ⟨x, ⟨hx, hlt, hl⟩, rfl⟩ := h
  exact ⟨x, hx, hlt, hl, rfl⟩

theorem sharedNode_congr (hx : recordAt t r = recordAt s r) (hn : t.next = s.next) :
    sharedNode t r = sharedNode s r := by
  simp only [sharedNode, hx, hn]

theorem SameCells.sharedGraph (h : SameCells s t) : sharedGraph t = sharedGraph s := by
  ext1 r
  exact sharedNode_congr (by rw [h.recordAt]) h.next

/-- Another word in a record that stays live. -/
theorem sharedGraph_setWord_live (hx : recordAt s r = some x) (hlt : addrOf r < s.next)
    (hl : HeapRecord.Live { x with word := w }) :
    sharedGraph (Mem.setWord s r w) = (sharedGraph s).set r ⟨refcount w, x.owns⟩ := by
  ext1 q
  by_cases hq : q = r
  · subst hq
    rw [Graph.node_set_self]
    exact sharedNode_live (recordAt_setWord_self hx) (by simpa using hlt) hl
  · rw [Graph.node_set_ne _ _ hq]
    exact sharedNode_congr (recordAt_setWord_ne hq) (setWord_next s r w)

/-- The deallocating bit takes a record out of the graph. -/
theorem sharedGraph_setWord_dying (hx : recordAt s r = some x)
    (hd : HeapRecord.Dying { x with word := w }) :
    sharedGraph (Mem.setWord s r w) = (sharedGraph s).erase r := by
  ext1 q
  by_cases hq : q = r
  · subst hq
    rw [Graph.node_erase_self]
    exact sharedNode_not_live (recordAt_setWord_self hx) fun hl => hl.not_dying hd
  · rw [Graph.node_erase_ne _ hq]
    exact sharedNode_congr (recordAt_setWord_ne hq) (setWord_next s r w)

/-- The memory of a dying record is not in the graph. -/
theorem sharedGraph_eraseRecord (hx : recordAt s r = some x) (hd : x.Dying) :
    sharedGraph (Mem.eraseRecord s r) = sharedGraph s := by
  ext1 q
  by_cases hq : q = r
  · subst hq
    rw [sharedGraph_node, sharedGraph_node, sharedNode_none (recordAt_erase_self s q),
      sharedNode_not_live hx fun hl => hl.not_dying hd]
  · exact sharedNode_congr (recordAt_erase_ne hq) (eraseRecord_next s r)

end

end BlocksRuntime.Threads
