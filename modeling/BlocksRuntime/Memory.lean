import BlocksRuntime.Flags
import Mathlib.Logic.Function.Basic

/-!
# Records and memory

The structures of `Block_private.h` and the memory they live in.

* `BlockLayout` is `struct Block_layout` with the captured variables that
  follow it.  The code of a compiler-generated copy or dispose helper is
  determined by the captured variables: `Capture.kind` says which flags value
  the helper passes for the variable, and that it passes none for a plain one.
* `BlockByref` is `struct Block_byref` with `struct Block_byref_2` when the
  record has helpers, and with the words behind them.  The words start with
  `struct Block_byref_3` when the record has an extended layout.
* `Mem` maps addresses to records.  An address is never handed out twice.
  Freeing a record removes it from the memory, so an access to a freed record
  is a fault.
* `Event` is what the runtime does to the outside: calls of the allocator, of
  the helpers, and of the callbacks.

Every operation is a state transformer `M` that may end in a `Fault`.
-/

namespace BlocksRuntime

open RetryLoop

/-- An address.  Addresses count allocations: a smaller one is older. -/
abbrev Addr := Nat

/-- The contents of a pointer-sized cell. -/
abbrev Word := Nat

def NULL : Addr := 0

/-- The class objects of `data.c`. -/
inductive Isa where
  | nil
  | stackBlock
  | mallocBlock
  | autoBlock
  | finalizingBlock
  | globalBlock
  | weakBlockVariable
  deriving DecidableEq, Repr

/-! ## Blocks -/

/-- The four flags values that block helpers generate, and `plain` for a
captured variable that the helpers leave to the bitwise copy. -/
inductive FieldKind where
  | plain
  | object
  | block
  | byref
  | weakByref
  deriving DecidableEq, Repr

/-- The flags argument that a block helper passes for a captured variable. -/
def FieldKind.flags : FieldKind → Option Flags
  | .plain => none
  | .object => some BLOCK_FIELD_IS_OBJECT
  | .block => some BLOCK_FIELD_IS_BLOCK
  | .byref => some BLOCK_FIELD_IS_BYREF
  | .weakByref => some (BLOCK_FIELD_IS_BYREF ||| BLOCK_FIELD_IS_WEAK)

/-- The helpers leave only the plain fields alone. -/
theorem FieldKind.eq_plain {k : FieldKind} (h : k.flags = none) : k = .plain := by
  cases k <;> first | rfl | cases h

/-- One captured variable. -/
structure Capture where
  kind : FieldKind
  value : Word
  deriving DecidableEq, Repr

/-- `struct Block_layout`.  The descriptor is immutable, so a block carries
the words of its descriptor. -/
structure BlockLayout where
  isa : Isa
  flags : Flags
  reserved : BitVec 32
  invoke : Word
  descriptor : List Word
  captured : List Capture
  deriving DecidableEq, Repr

/-! ## `__block` records -/

/-- The code behind `byref_keep`.  Compilers generate a call of
`_Block_object_assign` for the one field of the variable.  C++ and ARC helpers
copy the held block themselves. -/
inductive ByrefKeep where
  | assign (field : Nat) (flags : Flags)
  | copy (field : Nat)
  deriving DecidableEq, Repr

/-- The code behind `byref_destroy`. -/
inductive ByrefDestroy where
  | dispose (field : Nat) (flags : Flags)
  | release (field : Nat)
  deriving DecidableEq, Repr

/-- `struct Block_byref_2`. -/
structure BlockByref2 where
  byrefKeep : ByrefKeep
  byrefDestroy : ByrefDestroy
  deriving DecidableEq, Repr

/-- `struct Block_byref` and what follows it. -/
structure BlockByref where
  isa : Isa
  forwarding : Addr
  flags : Flags
  size : BitVec 32
  byref2 : Option BlockByref2
  storage : List Word
  deriving DecidableEq, Repr

/-! ## Memory -/

/-- Where a record lives. -/
inductive Storage where
  | stack
  | heap
  | global
  deriving DecidableEq, Repr

/-- A block and where it is. -/
structure BlockCell where
  storage : Storage
  layout : BlockLayout
  deriving DecidableEq, Repr

/-- A `__block` record and where it is. -/
structure ByrefCell where
  storage : Storage
  byref : BlockByref
  deriving DecidableEq, Repr

def BlockCell.withFlags (c : BlockCell) (w : Flags) : BlockCell :=
  { c with layout := { c.layout with flags := w } }

def ByrefCell.withFlags (c : ByrefCell) (w : Flags) : ByrefCell :=
  { c with byref := { c.byref with flags := w } }

@[simp] theorem BlockCell.withFlags_flags (c : BlockCell) : c.withFlags c.layout.flags = c := rfl
@[simp] theorem ByrefCell.withFlags_flags (c : ByrefCell) : c.withFlags c.byref.flags = c := rfl

/-- What a reference refers to. -/
inductive Ref where
  | block (a : Addr)
  | byref (a : Addr)
  | object (o : Addr)
  deriving DecidableEq, Repr

/-- What the runtime does to the outside. -/
inductive Event where
  | mallocBlock (aBlock result : Addr)
  | copyHelper (fn : Word) (result : Addr)
  | disposeHelper (fn : Word) (aBlock : Addr)
  | destructInstance (aBlock : Addr)
  | freeBlock (aBlock : Addr)
  | mallocByref (src copy : Addr)
  | byrefKeep (copy : Addr)
  | byrefDestroy (byref : Addr)
  | freeByref (byref : Addr)
  | retainObject (o : Addr)
  | releaseObject (o : Addr)
  deriving DecidableEq, Repr

/-- The record or object that an event is about. -/
def Event.subject : Event → Ref
  | .mallocBlock _ result => .block result
  | .copyHelper _ result => .block result
  | .disposeHelper _ aBlock => .block aBlock
  | .destructInstance aBlock => .block aBlock
  | .freeBlock aBlock => .block aBlock
  | .mallocByref _ copy => .byref copy
  | .byrefKeep copy => .byref copy
  | .byrefDestroy byref => .byref byref
  | .freeByref byref => .byref byref
  | .retainObject o => .object o
  | .releaseObject o => .object o

/-- The memory, the allocation counters and the events so far. -/
structure Mem where
  blocks : Addr → Option BlockCell
  byrefs : Addr → Option ByrefCell
  next : Addr
  mallocs : Nat
  trace : List Event

/-- The events about one record or object, in order. -/
def history (r : Ref) (trace : List Event) : List Event :=
  trace.filter fun e => e.subject = r

theorem history_append (r : Ref) (t u : List Event) :
    history r (t ++ u) = history r t ++ history r u := by
  simp [history]

theorem history_single (r : Ref) (e : Event) :
    history r [e] = if e.subject = r then [e] else [] := by
  by_cases h : e.subject = r <;> simp [history, h]

/-- The events between two memories. -/
def newEvents (s t : Mem) : List Event := t.trace.drop s.trace.length

theorem newEvents_append {s t : Mem} {events : List Event} (h : t.trace = s.trace ++ events) :
    newEvents s t = events := by
  rw [newEvents, h, List.drop_left]

namespace Mem

def setBlock (s : Mem) (a : Addr) (c : BlockCell) : Mem :=
  { s with blocks := Function.update s.blocks a (some c) }

def eraseBlock (s : Mem) (a : Addr) : Mem :=
  { s with blocks := Function.update s.blocks a none }

def setByref (s : Mem) (a : Addr) (c : ByrefCell) : Mem :=
  { s with byrefs := Function.update s.byrefs a (some c) }

def eraseByref (s : Mem) (a : Addr) : Mem :=
  { s with byrefs := Function.update s.byrefs a none }

def log (s : Mem) (e : Event) : Mem :=
  { s with trace := s.trace ++ [e] }

variable (s : Mem) (a b : Addr)

@[simp] theorem setBlock_blocks_self (c : BlockCell) : (s.setBlock a c).blocks a = some c := by
  simp [setBlock]

@[simp] theorem setBlock_blocks_ne {a b : Addr} (c : BlockCell) (h : b ≠ a) :
    (s.setBlock a c).blocks b = s.blocks b := by
  simp [setBlock, h]

@[simp] theorem setBlock_byrefs (c : BlockCell) : (s.setBlock a c).byrefs = s.byrefs := rfl
@[simp] theorem setBlock_next (c : BlockCell) : (s.setBlock a c).next = s.next := rfl
@[simp] theorem setBlock_mallocs (c : BlockCell) : (s.setBlock a c).mallocs = s.mallocs := rfl
@[simp] theorem setBlock_trace (c : BlockCell) : (s.setBlock a c).trace = s.trace := rfl

@[simp] theorem eraseBlock_blocks_self : (s.eraseBlock a).blocks a = none := by
  simp [eraseBlock]

@[simp] theorem eraseBlock_blocks_ne {a b : Addr} (h : b ≠ a) :
    (s.eraseBlock a).blocks b = s.blocks b := by
  simp [eraseBlock, h]

@[simp] theorem eraseBlock_byrefs : (s.eraseBlock a).byrefs = s.byrefs := rfl
@[simp] theorem eraseBlock_next : (s.eraseBlock a).next = s.next := rfl
@[simp] theorem eraseBlock_mallocs : (s.eraseBlock a).mallocs = s.mallocs := rfl
@[simp] theorem eraseBlock_trace : (s.eraseBlock a).trace = s.trace := rfl

@[simp] theorem setByref_byrefs_self (c : ByrefCell) : (s.setByref a c).byrefs a = some c := by
  simp [setByref]

@[simp] theorem setByref_byrefs_ne {a b : Addr} (c : ByrefCell) (h : b ≠ a) :
    (s.setByref a c).byrefs b = s.byrefs b := by
  simp [setByref, h]

@[simp] theorem setByref_blocks (c : ByrefCell) : (s.setByref a c).blocks = s.blocks := rfl
@[simp] theorem setByref_next (c : ByrefCell) : (s.setByref a c).next = s.next := rfl
@[simp] theorem setByref_mallocs (c : ByrefCell) : (s.setByref a c).mallocs = s.mallocs := rfl
@[simp] theorem setByref_trace (c : ByrefCell) : (s.setByref a c).trace = s.trace := rfl

@[simp] theorem eraseByref_byrefs_self : (s.eraseByref a).byrefs a = none := by
  simp [eraseByref]

@[simp] theorem eraseByref_byrefs_ne {a b : Addr} (h : b ≠ a) :
    (s.eraseByref a).byrefs b = s.byrefs b := by
  simp [eraseByref, h]

@[simp] theorem eraseByref_blocks : (s.eraseByref a).blocks = s.blocks := rfl
@[simp] theorem eraseByref_next : (s.eraseByref a).next = s.next := rfl
@[simp] theorem eraseByref_mallocs : (s.eraseByref a).mallocs = s.mallocs := rfl
@[simp] theorem eraseByref_trace : (s.eraseByref a).trace = s.trace := rfl

/-- Storing what is there already changes nothing. -/
theorem setBlock_same {s : Mem} {a : Addr} {c : BlockCell} (h : s.blocks a = some c) :
    s.setBlock a c = s := by
  rw [setBlock, ← h, Function.update_eq_self]

theorem setByref_same {s : Mem} {a : Addr} {c : ByrefCell} (h : s.byrefs a = some c) :
    s.setByref a c = s := by
  rw [setByref, ← h, Function.update_eq_self]

section

variable {s : Mem} {a b : Addr}

/-- A block before a store into another block or into itself. -/
theorem setBlock_cases {c d : BlockCell} (e : BlockCell) (hc : s.blocks a = some c)
    (hd : s.blocks b = some d) :
    (b = a ∧ d = c ∧ (s.setBlock a e).blocks b = some e) ∨
      (b ≠ a ∧ (s.setBlock a e).blocks b = some d) := by
  by_cases hba : b = a
  · subst hba
    exact Or.inl ⟨rfl, Option.some.inj (hd.symm.trans hc), setBlock_blocks_self s b e⟩
  · exact Or.inr ⟨hba, (setBlock_blocks_ne s e hba).trans hd⟩

theorem setByref_cases {c d : ByrefCell} (e : ByrefCell) (hc : s.byrefs a = some c)
    (hd : s.byrefs b = some d) :
    (b = a ∧ d = c ∧ (s.setByref a e).byrefs b = some e) ∨
      (b ≠ a ∧ (s.setByref a e).byrefs b = some d) := by
  by_cases hba : b = a
  · subst hba
    exact Or.inl ⟨rfl, Option.some.inj (hd.symm.trans hc), setByref_byrefs_self s b e⟩
  · exact Or.inr ⟨hba, (setByref_byrefs_ne s e hba).trans hd⟩

/-- A store into a block makes no block. -/
theorem setBlock_none {c : BlockCell} (e : BlockCell) (hc : s.blocks a = some c)
    (hb : s.blocks b = none) : (s.setBlock a e).blocks b = none := by
  have hba : b ≠ a := fun h => by
    rw [h, hc] at hb
    cases hb
  exact (setBlock_blocks_ne s e hba).trans hb

theorem setByref_none {c : ByrefCell} (e : ByrefCell) (hc : s.byrefs a = some c)
    (hb : s.byrefs b = none) : (s.setByref a e).byrefs b = none := by
  have hba : b ≠ a := fun h => by
    rw [h, hc] at hb
    cases hb
  exact (setByref_byrefs_ne s e hba).trans hb

end

@[simp] theorem log_blocks (e : Event) : (s.log e).blocks = s.blocks := rfl
@[simp] theorem log_byrefs (e : Event) : (s.log e).byrefs = s.byrefs := rfl
@[simp] theorem log_next (e : Event) : (s.log e).next = s.next := rfl
@[simp] theorem log_mallocs (e : Event) : (s.log e).mallocs = s.mallocs := rfl
@[simp] theorem log_trace (e : Event) : (s.log e).trace = s.trace ++ [e] := rfl

end Mem

/-! ## Primitive operations -/

/-- The ways in which a run can go wrong. -/
inductive Fault where
  /-- An access through `NULL`. -/
  | nullAccess
  /-- An access to memory that holds no such record. -/
  | dangling (a : Addr)
  /-- `os_assert` failed. -/
  | assertFailed
  /-- A word outside a record or a descriptor was read. -/
  | outOfBounds
  /-- A function pointer that the record does not have was called. -/
  | wildCall
  /-- The recursion bound of the model was too small. -/
  | outOfFuel
  deriving DecidableEq, Repr

/-- State transformers that may fault. -/
abbrev M := StateT Mem (Except Fault)

/-- What the environment decides: which calls of `malloc` succeed, and what
fresh memory contains. -/
structure Env where
  mallocOk : Nat → Bool
  junk : Nat → Word

theorem bind_apply {β γ : Type} (x : M β) (f : β → M γ) (s : Mem) :
    (x >>= f) s = match x s with
      | .ok (b, t) => f b t
      | .error e => .error e := by
  simp only [bind, StateT.bind, Except.bind]
  cases x s <;> rfl

@[simp] theorem pure_apply {β : Type} (b : β) (s : Mem) : (pure b : M β) s = .ok (b, s) := rfl

/-- A run that continues after a successful first part. -/
theorem bind_ok {β γ : Type} {x : M β} {f : β → M γ} {s t : Mem} {b : β}
    (h : x s = .ok (b, t)) : (x >>= f) s = f b t := by
  rw [bind_apply, h]

theorem bind_error {β γ : Type} {x : M β} {f : β → M γ} {s : Mem} {e : Fault}
    (h : x s = .error e) : (x >>= f) s = .error e := by
  rw [bind_apply, h]

def fault {β : Type} (e : Fault) : M β := fun _ => .error e

@[simp] theorem fault_apply {β : Type} (e : Fault) (s : Mem) :
    (fault e : M β) s = .error e := rfl

/-- What an access to an address without a record comes to. -/
def badAddr (a : Addr) : Fault :=
  if a = NULL then .nullAccess else .dangling a

def log (e : Event) : M Unit := fun s => .ok ((), s.log e)

@[simp] theorem log_apply (e : Event) (s : Mem) : log e s = .ok ((), s.log e) := rfl

/-- A word of a descriptor or of a record. -/
def wordAt (words : List Word) (i : Nat) : M Word :=
  match words[i]? with
  | some w => pure w
  | none => fault .outOfBounds

theorem wordAt_ok {words : List Word} {i : Nat} {w : Word} (h : words[i]? = some w) (s : Mem) :
    wordAt words i s = .ok (w, s) := by
  simp [wordAt, h]

def loadBlock (a : Addr) : M BlockLayout := fun s =>
  match s.blocks a with
  | some c => .ok (c.layout, s)
  | none => .error (badAddr a)

def updateBlock (a : Addr) (f : BlockLayout → BlockLayout) : M Unit := fun s =>
  match s.blocks a with
  | some c => .ok ((), s.setBlock a { c with layout := f c.layout })
  | none => .error (badAddr a)

/-- Run one of the retry loops on the flags word of a block. -/
def loopBlockFlags {ρ : Type} (a : Addr) (loop : Flags → Attempt Flags ρ) : M ρ := fun s =>
  match s.blocks a with
  | some c =>
    let out := (loop c.layout.flags).run c.layout.flags
    .ok (out.1, s.setBlock a (c.withFlags out.2))
  | none => .error (badAddr a)

def freeBlock (a : Addr) : M Unit := fun s =>
  match s.blocks a with
  | some _ => .ok ((), (s.eraseBlock a).log (.freeBlock a))
  | none => .error (badAddr a)

def loadByref (a : Addr) : M BlockByref := fun s =>
  match s.byrefs a with
  | some c => .ok (c.byref, s)
  | none => .error (badAddr a)

def updateByref (a : Addr) (f : BlockByref → BlockByref) : M Unit := fun s =>
  match s.byrefs a with
  | some c => .ok ((), s.setByref a { c with byref := f c.byref })
  | none => .error (badAddr a)

/-- Run one of the retry loops on the flags word of a `__block` record. -/
def loopByrefFlags {ρ : Type} (a : Addr) (loop : Flags → Attempt Flags ρ) : M ρ := fun s =>
  match s.byrefs a with
  | some c =>
    let out := (loop c.byref.flags).run c.byref.flags
    .ok (out.1, s.setByref a (c.withFlags out.2))
  | none => .error (badAddr a)

def freeByref (a : Addr) : M Unit := fun s =>
  match s.byrefs a with
  | some _ => .ok ((), (s.eraseByref a).log (.freeByref a))
  | none => .error (badAddr a)

/-- `malloc`: a fresh address, or `NULL` as `none`. -/
def malloc (env : Env) : M (Option Addr) := fun s =>
  if env.mallocOk s.mallocs then
    .ok (some s.next, { s with next := s.next + 1, mallocs := s.mallocs + 1 })
  else
    .ok (none, { s with mallocs := s.mallocs + 1 })

/-- The first stores into a freshly allocated record. -/
def storeBlock (a : Addr) (c : BlockCell) : M Unit := fun s => .ok ((), s.setBlock a c)

def storeByref (a : Addr) (c : ByrefCell) : M Unit := fun s => .ok ((), s.setByref a c)

section Evaluation

variable {s : Mem} {a : Addr}

theorem loadBlock_ok {c : BlockCell} (h : s.blocks a = some c) :
    loadBlock a s = .ok (c.layout, s) := by
  simp [loadBlock, h]

theorem updateBlock_ok {c : BlockCell} (h : s.blocks a = some c)
    (f : BlockLayout → BlockLayout) :
    updateBlock a f s = .ok ((), s.setBlock a { c with layout := f c.layout }) := by
  simp [updateBlock, h]

theorem loopBlockFlags_ok {ρ : Type} {c : BlockCell} (h : s.blocks a = some c)
    (loop : Flags → Attempt Flags ρ) {r : ρ} {w : Flags}
    (hrun : (loop c.layout.flags).run c.layout.flags = (r, w)) :
    loopBlockFlags a loop s = .ok (r, s.setBlock a (c.withFlags w)) := by
  simp [loopBlockFlags, h, hrun]

theorem freeBlock_ok {c : BlockCell} (h : s.blocks a = some c) :
    freeBlock a s = .ok ((), (s.eraseBlock a).log (.freeBlock a)) := by
  simp [freeBlock, h]

theorem loadByref_ok {c : ByrefCell} (h : s.byrefs a = some c) :
    loadByref a s = .ok (c.byref, s) := by
  simp [loadByref, h]

theorem updateByref_ok {c : ByrefCell} (h : s.byrefs a = some c)
    (f : BlockByref → BlockByref) :
    updateByref a f s = .ok ((), s.setByref a { c with byref := f c.byref }) := by
  simp [updateByref, h]

theorem loopByrefFlags_ok {ρ : Type} {c : ByrefCell} (h : s.byrefs a = some c)
    (loop : Flags → Attempt Flags ρ) {r : ρ} {w : Flags}
    (hrun : (loop c.byref.flags).run c.byref.flags = (r, w)) :
    loopByrefFlags a loop s = .ok (r, s.setByref a (c.withFlags w)) := by
  simp [loopByrefFlags, h, hrun]

theorem freeByref_ok {c : ByrefCell} (h : s.byrefs a = some c) :
    freeByref a s = .ok ((), (s.eraseByref a).log (.freeByref a)) := by
  simp [freeByref, h]

@[simp] theorem storeBlock_apply (a : Addr) (c : BlockCell) (s : Mem) :
    storeBlock a c s = .ok ((), s.setBlock a c) := rfl

@[simp] theorem storeByref_apply (a : Addr) (c : ByrefCell) (s : Mem) :
    storeByref a c s = .ok ((), s.setByref a c) := rfl

theorem malloc_ok {env : Env} (h : env.mallocOk s.mallocs = true) :
    malloc env s = .ok (some s.next, { s with next := s.next + 1, mallocs := s.mallocs + 1 }) := by
  simp [malloc, h]

theorem malloc_none {env : Env} (h : env.mallocOk s.mallocs = false) :
    malloc env s = .ok (none, { s with mallocs := s.mallocs + 1 }) := by
  simp [malloc, h]

end Evaluation

section Inversion

variable {ρ : Type} {a : Addr} {s t : Mem}

theorem loadBlock_inv {b : BlockLayout} (h : loadBlock a s = .ok (b, t)) :
    t = s ∧ ∃ c, s.blocks a = some c ∧ c.layout = b := by
  unfold loadBlock at h
  split at h
  · next c hc =>
    obtain ⟨hb, ht⟩ := Prod.mk.inj (Except.ok.inj h)
    exact ⟨ht.symm, c, hc, hb⟩
  · cases h

theorem loadByref_inv {b : BlockByref} (h : loadByref a s = .ok (b, t)) :
    t = s ∧ ∃ c, s.byrefs a = some c ∧ c.byref = b := by
  unfold loadByref at h
  split at h
  · next c hc =>
    obtain ⟨hb, ht⟩ := Prod.mk.inj (Except.ok.inj h)
    exact ⟨ht.symm, c, hc, hb⟩
  · cases h

theorem updateBlock_inv {f : BlockLayout → BlockLayout} (h : updateBlock a f s = .ok ((), t)) :
    ∃ c, s.blocks a = some c ∧ t = s.setBlock a { c with layout := f c.layout } := by
  unfold updateBlock at h
  split at h
  · next c hc => exact ⟨c, hc, (Prod.mk.inj (Except.ok.inj h)).2.symm⟩
  · cases h

theorem updateByref_inv {f : BlockByref → BlockByref} (h : updateByref a f s = .ok ((), t)) :
    ∃ c, s.byrefs a = some c ∧ t = s.setByref a { c with byref := f c.byref } := by
  unfold updateByref at h
  split at h
  · next c hc => exact ⟨c, hc, (Prod.mk.inj (Except.ok.inj h)).2.symm⟩
  · cases h

theorem loopBlockFlags_inv {loop : Flags → Attempt Flags ρ} {r : ρ}
    (h : loopBlockFlags a loop s = .ok (r, t)) : ∃ c w, s.blocks a = some c ∧
      (loop c.layout.flags).run c.layout.flags = (r, w) ∧ t = s.setBlock a (c.withFlags w) := by
  unfold loopBlockFlags at h
  split at h
  · next c hc =>
    obtain ⟨rfl, rfl⟩ := Prod.mk.inj (Except.ok.inj h)
    exact ⟨c, _, hc, rfl, rfl⟩
  · cases h

theorem loopByrefFlags_inv {loop : Flags → Attempt Flags ρ} {r : ρ}
    (h : loopByrefFlags a loop s = .ok (r, t)) : ∃ c w, s.byrefs a = some c ∧
      (loop c.byref.flags).run c.byref.flags = (r, w) ∧ t = s.setByref a (c.withFlags w) := by
  unfold loopByrefFlags at h
  split at h
  · next c hc =>
    obtain ⟨rfl, rfl⟩ := Prod.mk.inj (Except.ok.inj h)
    exact ⟨c, _, hc, rfl, rfl⟩
  · cases h

end Inversion

end BlocksRuntime
