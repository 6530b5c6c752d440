import BlocksRuntime.CopySteps
import BlocksRuntime.Creation

/-!
# The layout word of a `__block` record

The layout kinds of a `__block` variable are an enumeration in bits 28 to 31,
and only `BLOCK_BYREF_LAYOUT_EXTENDED` has a `struct Block_byref_3`.
`_Block_byref_copy` tests bit 28 alone.

* `keptRecord` is the heap record that `byref_keep` should find: the header, the
  two helpers, and the layout word of an extended layout.
* `blockByrefCopyBody_plain` and `blockByrefCopyBody_odd` are the records that
  it does find, for an even and for an odd layout kind.
* `copiesLayoutOnly_iff` compares the two.
-/

namespace BlocksRuntime

open RetryLoop

/-- Fresh memory for the words behind the header. -/
def freshWords (env : Env) (src : BlockByref) : List Word :=
  (List.range src.storage.length).map env.junk

/-- A heap record with its header, its helpers and some words behind them. -/
def startedRecord (src : BlockByref) (copy : Addr) (storage : List Word) : ByrefCell :=
  ⟨.heap, {
    isa := .nil
    forwarding := copy
    flags := heapByrefFlags src.flags
    size := src.size
    byref2 := src.byref2
    storage := storage }⟩

/-- The record before `byref_keep` is called, when the runtime leaves the
storage of the variable to the helper. -/
def keptRecord (env : Env) (src : BlockByref) (copy : Addr) : ByrefCell :=
  startedRecord src copy <|
    if src.flags &&& BLOCK_BYREF_LAYOUT_MASK = BLOCK_BYREF_LAYOUT_EXTENDED then
      (freshWords env src).set 0 (src.storage.getD 0 0)
    else freshWords env src

/-- `_Block_byref_copy` from the call of `byref_keep` on. -/
def callByrefKeep (byrefKeep : Addr → Addr → M Unit) (copy src : Addr) : M Addr := do
  log (.byrefKeep copy)
  byrefKeep copy src
  let record ← loadByref src
  return record.forwarding

/-- Whatever fresh memory contains and whatever `byref_keep` does, it is called
with `keptRecord` in the heap record and with no other change than the new
forwarding pointer. -/
def CopiesLayoutOnly (s : Mem) (v : Addr) (c : ByrefCell) : Prop :=
  ∀ env, env.mallocOk s.mallocs = true → ∀ byrefKeep,
    blockByrefCopyBody env byrefKeep v s =
      callByrefKeep byrefKeep s.next v (s.moving v c (keptRecord env c.byref s.next))

/-- The layout kind is even, or it is the extended one. -/
def LayoutBitExact (w : Flags) : Prop :=
  w &&& BLOCK_BYREF_LAYOUT_EXTENDED = 0 ∨
    w &&& BLOCK_BYREF_LAYOUT_MASK = BLOCK_BYREF_LAYOUT_EXTENDED

theorem layoutBit_of_extended {w : Flags}
    (h : w &&& BLOCK_BYREF_LAYOUT_MASK = BLOCK_BYREF_LAYOUT_EXTENDED) :
    w &&& BLOCK_BYREF_LAYOUT_EXTENDED ≠ 0 := by
  have hbit : w &&& BLOCK_BYREF_LAYOUT_EXTENDED =
      w &&& BLOCK_BYREF_LAYOUT_MASK &&& BLOCK_BYREF_LAYOUT_EXTENDED := by
    rw [BitVec.and_assoc, show BLOCK_BYREF_LAYOUT_MASK &&& BLOCK_BYREF_LAYOUT_EXTENDED =
      BLOCK_BYREF_LAYOUT_EXTENDED by decide]
  rw [hbit, h]
  decide

section

variable {env : Env} {s : Mem} {v : Addr} {c : ByrefCell} {byrefKeep : Addr → Addr → M Unit}
  (hlt : v < s.next) (hc : s.byrefs v = some c) (hforward : c.byref.forwarding = v)
  (hcount : refcount c.byref.flags = 0)
  (hhelpers : c.byref.flags &&& BLOCK_BYREF_HAS_COPY_DISPOSE ≠ 0)
  (hmalloc : env.mallocOk s.mallocs = true)

include hlt hc hforward hcount hhelpers hmalloc

/-- `_Block_byref_copy` on a stack record with helpers, up to the layout test. -/
theorem blockByrefCopyBody_start :
    blockByrefCopyBody env byrefKeep v s =
      (do
        if c.byref.flags &&& BLOCK_BYREF_LAYOUT_EXTENDED ≠ 0 then
          let layout ← wordAt c.byref.storage 0
          updateByref s.next fun b => { b with storage := b.storage.set 0 layout }
        callByrefKeep byrefKeep s.next v : M Addr)
      (s.moving v c (startedRecord c.byref s.next (freshWords env c.byref))) := by
  rw [blockByrefCopyBody_moving hlt hc hforward hcount hmalloc, if_pos hhelpers,
    bind_ok (updateByref_moving s v c _ _)]
  rfl

/-- For an even layout kind the storage is left alone. -/
theorem blockByrefCopyBody_plain
    (hlayout : c.byref.flags &&& BLOCK_BYREF_LAYOUT_EXTENDED = 0) :
    blockByrefCopyBody env byrefKeep v s =
      callByrefKeep byrefKeep s.next v
        (s.moving v c (startedRecord c.byref s.next (freshWords env c.byref))) := by
  rw [blockByrefCopyBody_start hlt hc hforward hcount hhelpers hmalloc,
    if_neg (not_not.2 hlayout)]

/-- For an odd layout kind the first word behind the helpers is copied. -/
theorem blockByrefCopyBody_odd {word : Word} (hword : c.byref.storage[0]? = some word)
    (hlayout : c.byref.flags &&& BLOCK_BYREF_LAYOUT_EXTENDED ≠ 0) :
    blockByrefCopyBody env byrefKeep v s =
      callByrefKeep byrefKeep s.next v
        (s.moving v c (startedRecord c.byref s.next ((freshWords env c.byref).set 0 word))) := by
  rw [blockByrefCopyBody_start hlt hc hforward hcount hhelpers hmalloc, if_pos hlayout,
    bind_ok (wordAt_ok hword _), bind_ok (updateByref_moving s v c _ _)]
  rfl

/-- Without such a word an odd layout kind reads behind the record. -/
theorem blockByrefCopyBody_short (hword : c.byref.storage[0]? = none)
    (hlayout : c.byref.flags &&& BLOCK_BYREF_LAYOUT_EXTENDED ≠ 0) :
    blockByrefCopyBody env byrefKeep v s = .error .outOfBounds := by
  rw [blockByrefCopyBody_start hlt hc hforward hcount hhelpers hmalloc, if_pos hlayout]
  simp only [wordAt, hword]
  rfl

omit hc hforward hcount hhelpers hmalloc in
/-- A `byref_keep` that does nothing shows the record that it was called with. -/
theorem callByrefKeep_idle (d : ByrefCell) :
    callByrefKeep (fun _ _ => pure ()) s.next v (s.moving v c d) =
      .ok (s.next, (s.moving v c d).log (.byrefKeep s.next)) := by
  have hvar := Mem.moving_variable (s := s) c d (Nat.ne_of_lt hlt)
  rw [callByrefKeep, bind_ok (log_apply _ _), bind_ok (pure_apply _ _),
    bind_ok (loadByref_ok (c := c.forward s.next) (by simpa using hvar)), pure_apply]
  rfl

end

/-- The runtime copies the layout word of an extended record and no other word,
for exactly the records whose layout kind is even or extended. -/
theorem copiesLayoutOnly_iff {s : Mem} {v : Addr} {c : ByrefCell} (hlt : v < s.next)
    (hc : s.byrefs v = some c) (hforward : c.byref.forwarding = v)
    (hcount : refcount c.byref.flags = 0)
    (hhelpers : c.byref.flags &&& BLOCK_BYREF_HAS_COPY_DISPOSE ≠ 0)
    (hextended : c.byref.flags &&& BLOCK_BYREF_LAYOUT_MASK = BLOCK_BYREF_LAYOUT_EXTENDED →
      c.byref.storage ≠ []) :
    CopiesLayoutOnly s v c ↔ LayoutBitExact c.byref.flags := by
  constructor
  · intro hcopies
    by_contra hodd
    obtain ⟨hbit, hkind⟩ := not_or.1 hodd
    -- Fresh memory differs from the first word of the variable.
    let env : Env := ⟨fun _ => true, fun _ => c.byref.storage.getD 0 0 + 1⟩
    have hrun := hcopies env rfl fun _ _ => pure ()
    rw [callByrefKeep_idle hlt, keptRecord, if_neg hkind] at hrun
    cases hword : c.byref.storage[0]? with
    | none =>
      rw [blockByrefCopyBody_short hlt hc hforward hcount hhelpers rfl hword hbit] at hrun
      cases hrun
    | some word =>
      rw [blockByrefCopyBody_odd hlt hc hforward hcount hhelpers rfl hword hbit,
        callByrefKeep_idle hlt] at hrun
      have hmem := congrArg Prod.snd (Except.ok.inj hrun)
      have hrecord := congrFun (congrArg Mem.byrefs hmem) s.next
      rw [Mem.log_byrefs, Mem.log_byrefs, Mem.moving_self, Mem.moving_self,
        Option.some.injEq] at hrecord
      have hfirst := congrArg (fun d : ByrefCell => d.byref.storage[0]?) hrecord
      have hlen : 0 < c.byref.storage.length := (List.getElem?_eq_some_iff.1 hword).1
      simp only [startedRecord, freshWords, env, List.getElem?_set_self', List.getElem?_map,
        List.getElem?_range hlen, Option.map_some, List.getD_eq_getElem?_getD, hword,
        Option.getD_some] at hfirst
      exact Nat.ne_of_lt (Nat.lt_succ_self word) (Option.some.inj hfirst)
  · intro hexact env hmalloc byrefKeep
    rcases hexact with hbit | hkind
    · have hkind : ¬c.byref.flags &&& BLOCK_BYREF_LAYOUT_MASK = BLOCK_BYREF_LAYOUT_EXTENDED :=
        fun h => layoutBit_of_extended h hbit
      rw [keptRecord, if_neg hkind,
        blockByrefCopyBody_plain hlt hc hforward hcount hhelpers hmalloc hbit]
    · have hlen := List.length_pos_of_ne_nil (hextended hkind)
      have hword : c.byref.storage[0]? = some (c.byref.storage.getD 0 0) := by
        rw [List.getD_eq_getElem?_getD, List.getElem?_eq_getElem hlen, Option.getD_some]
      rw [keptRecord, if_pos hkind, blockByrefCopyBody_odd hlt hc hforward hcount hhelpers hmalloc
        hword (layoutBit_of_extended hkind)]

/-! ## A strong and an extended variable -/

/-- A `__block id` of the given layout kind, with the object 50. -/
def objectRecord (kind : Flags) : BlockByref where
  isa := .nil
  forwarding := 1
  flags := BLOCK_BYREF_HAS_COPY_DISPOSE ||| kind
  size := 48
  byref2 := some ⟨.assign 0 0x83, .dispose 0 0x83⟩
  storage := [50]

def objectVariable (kind : Flags) : Mem := Mem.empty.newByref (objectRecord kind)

theorem copiesLayoutOnly_extended :
    CopiesLayoutOnly (objectVariable BLOCK_BYREF_LAYOUT_EXTENDED) 1
      ⟨.stack, objectRecord BLOCK_BYREF_LAYOUT_EXTENDED⟩ :=
  (copiesLayoutOnly_iff (v := 1) (c := ⟨.stack, objectRecord BLOCK_BYREF_LAYOUT_EXTENDED⟩)
    (by decide) rfl rfl (by decide) (by decide) (by decide)).2 (Or.inr (by decide))

/-- `BLOCK_BYREF_LAYOUT_STRONG` is odd: the runtime copies the object pointer of
the variable before it calls `byref_keep`. -/
theorem not_copiesLayoutOnly_strong :
    ¬CopiesLayoutOnly (objectVariable BLOCK_BYREF_LAYOUT_STRONG) 1
      ⟨.stack, objectRecord BLOCK_BYREF_LAYOUT_STRONG⟩ := by
  intro hcopies
  have hrun := hcopies ⟨fun _ => true, fun _ => 0⟩ rfl fun _ _ => pure ()
  have hmem := congrArg Prod.snd (Except.ok.inj hrun)
  have hrecord := congrArg (fun t : Mem => (t.byrefs 2).map fun d => d.byref.storage) hmem
  exact absurd hrecord (by decide)

end BlocksRuntime
