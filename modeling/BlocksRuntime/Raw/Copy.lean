import BlocksRuntime.CopySteps
import BlocksRuntime.Raw.Release

/-!
# Copying, on bytes

The counterpart of `Raw.Release` for the functions that allocate.

* `implements_blockCopyBody` and `implements_blockByrefCopyBody` are the two
  functions that allocate.  The new object is filled field by field, with what
  `malloc` left in it in between.
* `copiesLike` and `keepsLike` are the helpers.
* `implements_blockObjectAssignN` is the induction over the depth of the calls.
-/

namespace BlocksRuntime.Raw

open RetryLoop ByteMemory StateFrame StateRefinement

/-- There was an address for everything that was allocated. -/
def Addressable (s : Mem) : Prop := s.next ≤ addressLimit

/-- The bytes do what the records do. -/
abbrev Implements {β : Type} (im : Image) (U : Set Addr) (x : RawM β) (y : M β) : Prop :=
  Refines (Represents im U) Addressable x y

/-- The same allocator, with other words in fresh memory. -/
def RawEnv.toEnv (env : RawEnv) (junk : Nat → Word) : Env := ⟨env.mallocOk, junk⟩

section

variable {im : Image} {env : RawEnv} {junk : Nat → Word} {U : Set Addr} {r : RawMem} {s t : Mem}
  {a dst src : Addr}

theorem Placed.bounded (h : Placed s) : Bounded s := ⟨h.block_lt, h.byref_lt⟩

theorem implements_pure {β : Type} (b : β) : Implements im U (pure b) (pure b) := Refines.pure b

theorem Represents.malloc_run (h : Represents im U r s) (hm : env.mallocOk s.mallocs = true)
    (hlimit : s.next + 1 ≤ addressLimit) (size : Nat) :
    ∃ o u, malloc env size r = .ok (s.next, u) ∧ o.size = size ∧ u.objects s.next = some o ∧
      (∀ b, b ≠ s.next → u.objects b = r.objects b) ∧
      Represents im (insert s.next U) u
        { s with next := s.next + 1, mallocs := s.mallocs + 1 } := by
  have hm' : env.mallocOk r.mallocs = true := h.mallocs ▸ hm
  refine ⟨⟨size, env.junk r.mallocs⟩, _, ?_, rfl, ?_, fun b hb => ?_,
    h.allocate hlimit ⟨size, env.junk r.mallocs⟩⟩
  · simp only [malloc, hm', if_true, h.next]
  · rw [h.next]
    exact setObject_self r s.next _
  · rw [h.next]
    exact setObject_ne r _ hb

theorem log_run (h : Represents im U r s) (e : Event) :
    ∃ u, log e r = .ok ((), u) ∧ u.objects = r.objects ∧ Represents im U u (s.log e) :=
  ⟨_, rfl, rfl, h.log e⟩

theorem Represents.malloc_none_run (h : Represents im U r s)
    (hm : env.mallocOk s.mallocs = false) (size : Nat) :
    malloc env size r = .ok (NULL, { r with mallocs := r.mallocs + 1 }) := by
  have hm' : env.mallocOk r.mallocs = false := h.mallocs ▸ hm
  simp [malloc, hm']

/-! ## `_Block_copy` -/

/-- What `_Block_copy` needs of the copy helper: the two blocks are different,
and the new one is a copy of the old one. -/
def CopiesLike (im : Image) (U : Set Addr) (raw : List (Nat × Flags) → Addr → Addr → RawM Unit)
    (records : Addr → Addr → M Unit) : Prop :=
  ∀ r s dst src c d t, Represents im U r s → s.blocks src = some c → s.blocks dst = some d →
    d.layout.captured.map Capture.kind = c.layout.captured.map Capture.kind → dst ≠ src →
    records dst src s = .ok ((), t) → Addressable t →
    ∃ u, raw (helperFields 0 c.layout.captured) dst src r = .ok ((), u) ∧ Represents im U u t

variable {raw : List (Nat × Flags) → Addr → Addr → RawM Unit} {records : Addr → Addr → M Unit}

theorem callCopyHelper_run (hhelper : CopiesLike im U raw records) (h : Represents im U r s)
    {c d : BlockCell} (hc : s.blocks src = some c) (hd : s.blocks dst = some d)
    (hkinds : d.layout.captured.map Capture.kind = c.layout.captured.map Capture.kind)
    (hne : dst ≠ src)
    (hrun : BlocksRuntime.blockCallCopyHelper records dst src s = .ok ((), t))
    (hlimit : Addressable t) :
    ∃ u, blockCallCopyHelper im raw dst src r = .ok ((), u) ∧ Represents im U u t := by
  obtain ⟨b, s', hload, hrun⟩ := bind_eq_ok hrun
  obtain ⟨rfl, c', hc', rfl⟩ := loadBlock_inv hload
  obtain rfl : c = c' := Option.some.inj (hc.symm.trans hc')
  obtain ⟨o, ho, hb⟩ := h.block src c hc
  by_cases hhas : c.layout.flags &&& BLOCK_HAS_COPY_DISPOSE = 0
  · rw [BlocksRuntime.blockDescriptor2, if_pos hhas] at hrun
    obtain ⟨_, rfl⟩ := Prod.mk.inj (Except.ok.inj hrun)
    exact ⟨r, hb.copyHelper_none ho hhas raw dst, h⟩
  · rw [BlocksRuntime.blockDescriptor2, if_neg hhas] at hrun
    obtain ⟨copy, s, hword, hcall⟩ := bind_eq_ok hrun
    obtain ⟨rfl, hget⟩ := wordAt_inv hword
    rw [List.getElem?_drop] at hget
    rw [bind_ok (log_apply _ _)] at hcall
    obtain ⟨u, hu, hend⟩ := hhelper _ _ dst src c d t (h.log (.copyHelper copy dst)) hc hd hkinds
      hne hcall hlimit
    exact ⟨u, (hb.copyHelper_run ho hhas hget raw dst).trans hu, hend⟩

/-- The stores into the new object, once it is a bitwise copy: the object then
holds the half copied block. -/
theorem halfCopy_run {c : BlockCell} {q : Object} (hq : r.objects dst = some q)
    (hb : BlockBytes im c.layout q) {β : Type} (k : RawM β) :
    ∃ p, (do
      let flags ← load32 dst 8
      store32 dst 8 (flags &&& ~~~(BLOCK_REFCOUNT_MASK ||| BLOCK_DEALLOCATING))
      let flags ← load32 dst 8
      store32 dst 8 (flags ||| (BLOCK_NEEDS_FREE ||| 2))
      k) r = k (r.setObject dst p) ∧ BlockBytes im (halfCopied c).layout p ∧ p.size = q.size ∧
      ∀ i, 12 ≤ i → p.byte i = q.byte i := by
  have hroom := hb.room
  have hreset : c.layout.flags &&& ~~~(BLOCK_REFCOUNT_MASK ||| BLOCK_DEALLOCATING) &&&
      BLOCK_HAS_COPY_DISPOSE = c.layout.flags &&& BLOCK_HAS_COPY_DISPOSE := by
    rw [BitVec.and_assoc]
    rfl
  obtain ⟨q', hstore, hstored⟩ := store_run hq 4 8 (by omega)
    (c.layout.flags &&& ~~~(BLOCK_REFCOUNT_MASK ||| BLOCK_DEALLOCATING)).toNat
  have hb' := hb.storeFlags hstored hreset
  have hq' := setObject_self r dst q'
  obtain ⟨p, hstore', hstored'⟩ := store_run hq' 4 8
    (by have := hstored.size; omega) (heapBlockFlags c.layout.flags).toNat
  refine ⟨p, ?_, hb'.storeFlags hstored' ?_, hstored'.size.trans hstored.size, fun i hi => ?_⟩
  · rw [run_bind (hb.flags_run hq), store32, run_bind hstore, run_bind (hb'.flags_run hq'), store32]
    show (store 4 dst 8 (heapBlockFlags c.layout.flags).toNat >>= fun _ => k) _ = _
    rw [run_bind hstore', setObject_twice]
  · exact (heapBlockFlags_other c.layout.flags (by decide) (by decide)).trans hreset.symm
  · exact (hstored'.rest i (Or.inr hi)).trans (hstored.rest i (Or.inr hi))

/-- `_Block_copy` on a stack block without memory for the copy. -/
theorem blockCopyBody_noMemory (raw : List (Nat × Flags) → Addr → Addr → RawM Unit) {c : BlockCell}
    (h : Represents im U r s) (hc : s.blocks a = some c)
    (hfree : ¬(c.layout.flags &&& BLOCK_NEEDS_FREE ≠ 0))
    (hglobal : ¬(c.layout.flags &&& BLOCK_IS_GLOBAL ≠ 0))
    (hm : env.mallocOk s.mallocs = false) :
    blockCopyBody im env raw a r = .ok (NULL, { r with mallocs := r.mallocs + 1 }) := by
  obtain ⟨o, ho, hb⟩ := h.block a c hc
  obtain ⟨d, hd, hdesc⟩ := hb.descriptor
  obtain ⟨n, hn, _⟩ := hdesc.size
  rw [blockCopyBody, if_neg (h.placed.ne_null hc), run_bind (hb.flags_run ho), if_neg hfree,
    run_bind (hb.flags_run ho), if_neg hglobal, run_bind (hb.descriptor_run ho),
    run_bind (hb.word_run (i := 1) hn r), run_bind (h.malloc_none_run hm n), if_pos rfl, run_pure]

/-- `_Block_copy` on a stack block, up to the call of its helper. -/
theorem blockCopyBody_stack (raw : List (Nat × Flags) → Addr → Addr → RawM Unit) {c : BlockCell}
    {o : Object} {n : Word} (h : Represents im U r s) (hc : s.blocks a = some c)
    (ho : r.objects a = some o)
    (hfree : ¬(c.layout.flags &&& BLOCK_NEEDS_FREE ≠ 0))
    (hglobal : ¬(c.layout.flags &&& BLOCK_IS_GLOBAL ≠ 0)) (hn : c.layout.descriptor[1]? = some n)
    (hm : env.mallocOk s.mallocs = true) (hlimit : s.next + 1 ≤ addressLimit) :
    ∃ u p, blockCopyBody im env raw a r = (do
        blockCallCopyHelper im raw s.next a
        store64 s.next 0 (im.isa .mallocBlock)
        return s.next : RawM Addr) u ∧
      Represents im U u (s.halfCopy a c) ∧ (∀ b, b ≠ s.next → u.objects b = r.objects b) ∧
      u.objects s.next = some p ∧ p.size = n ∧ ∀ i : Nat, 12 ≤ i → i < n → p.byte i = o.byte i := by
  have hb := h.blockBytes hc ho
  obtain ⟨d, hd, hdesc⟩ := hb.descriptor
  obtain ⟨n', hn', _, hroom⟩ := hdesc.size
  obtain rfl : n = n' := Option.some.inj (hn.symm.trans hn')
  have hne : a ≠ s.next := (h.placed.block_lt a c hc).ne
  have hnull : s.next ≠ NULL := h.placed.pos.ne'
  have harg : a ≠ NULL := h.placed.ne_null hc
  obtain ⟨o', u, hmalloc, hsize, hnew, hold, hu⟩ := h.malloc_run hm hlimit n
  obtain ⟨v, hlog, hobjects, hv⟩ := log_run hu (.mallocBlock a s.next)
  have hao : v.objects a = some o := hobjects ▸ (hold a hne).trans ho
  have hro : v.objects s.next = some o' := hobjects ▸ hnew
  -- bitcopy first
  obtain ⟨q, hmove, hblit⟩ := memmove_run hro hao 0 0 n (by omega) (by omega)
  have hq := hb.blit hn (hblit.size.trans hsize) hblit
  obtain ⟨p, hstores, hp, hpsize, hbytes⟩ := halfCopy_run (setObject_self v s.next q) hq (do
    blockCallCopyHelper im raw s.next a
    store64 s.next 0 (im.isa .mallocBlock)
    return s.next : RawM Addr)
  refine ⟨v.setObject s.next p, p, ?_, ?_, fun b hb => ?_, setObject_self v s.next p,
    hpsize.trans (hblit.size.trans hsize), fun i hi hlt => ?_⟩
  · rw [blockCopyBody, if_neg harg, run_bind (hb.flags_run ho), if_neg hfree,
      run_bind (hb.flags_run ho), if_neg hglobal, run_bind (hb.descriptor_run ho),
      run_bind (hb.word_run (i := 1) hn r), run_bind hmalloc, if_neg hnull, run_bind hlog,
      run_bind (hb.descriptor_run hao), run_bind (hb.word_run (i := 1) hn v), run_bind hmove,
      hstores, setObject_twice]
  · exact hv.storeBlock (Nat.lt_succ_self _) hnull h.placed.byref_next
      (fun b hb => by rw [Set.mem_insert_iff, or_iff_right hb]) hp
  · rw [setObject_ne v p hb, hobjects]
    exact hold b hb
  · have hcopied := hblit.bytes i hlt
    rw [Nat.zero_add] at hcopied
    exact (hbytes i hi).trans hcopied

theorem implements_blockCopyBody (hhelper : ∀ U, CopiesLike im U raw records)
    (hkeeps : ∀ dst src, Keeps (some dst) (records dst src)) (U : Set Addr) (a : Addr) :
    Implements im U (blockCopyBody im env raw a)
      (BlocksRuntime.blockCopyBody (env.toEnv junk) records a) := by
  intro r s b u h hrun hlimit
  by_cases harg : a = NULL
  · rw [blockCopyBody, if_pos harg]
    rw [BlocksRuntime.blockCopyBody, if_pos harg] at hrun
    exact implements_pure NULL _ _ _ _ h hrun hlimit
  have hcopy := hrun
  rw [BlocksRuntime.blockCopyBody, if_neg harg] at hrun
  obtain ⟨_, s', hload, hrun⟩ := bind_eq_ok hrun
  obtain ⟨rfl, c, hc, rfl⟩ := loadBlock_inv hload
  obtain ⟨o, ho, hb⟩ := h.block a c hc
  by_cases hfree : c.layout.flags &&& BLOCK_NEEDS_FREE ≠ 0
  · rw [if_pos hfree] at hrun
    obtain ⟨count, t, hloop, hrun⟩ := bind_eq_ok hrun
    obtain ⟨w, hw, ht⟩ := h.loopBlock high_incr_run hloop
    rw [blockCopyBody, if_neg harg, run_bind (hb.flags_run ho), if_pos hfree, run_bind hw]
    exact implements_pure a _ _ _ _ ht hrun hlimit
  rw [if_neg hfree] at hrun
  by_cases hglobal : c.layout.flags &&& BLOCK_IS_GLOBAL ≠ 0
  · rw [if_pos hglobal] at hrun
    rw [blockCopyBody, if_neg harg, run_bind (hb.flags_run ho), if_neg hfree,
      run_bind (hb.flags_run ho), if_pos hglobal]
    exact implements_pure a _ _ _ _ h hrun hlimit
  rw [if_neg hglobal] at hrun
  cases hm : env.mallocOk s'.mallocs with
  | false =>
    have hm' : (env.toEnv junk).mallocOk s'.mallocs = false := hm
    rw [bind_ok (malloc_none hm')] at hrun
    rw [blockCopyBody_noMemory raw h hc hfree hglobal hm]
    exact implements_pure NULL _ _ _ _ h.noMemory hrun hlimit
  | true =>
    obtain ⟨rfl, t, e, hcall, he, rfl⟩ := blockCopyBody_made hc harg hfree hglobal hm hcopy
    have hne : a ≠ s'.next := (h.placed.block_lt a c hc).ne
    obtain ⟨hhalf, _⟩ := kept_halfCopy h.placed.bounded a c
    obtain ⟨_, hkept⟩ := keeps_blockCallCopyHelper (hkeeps s'.next a) _ _ _ hhalf hcall
    obtain ⟨d, hd, hdesc⟩ := hb.descriptor
    obtain ⟨n, hn, _⟩ := hdesc.size
    obtain ⟨u, p, hstack, hmade, _⟩ := blockCopyBody_stack raw h hc ho hfree hglobal hn hm
      (hkept.next.trans hlimit)
    -- the helper
    obtain ⟨w, hw, ht⟩ := callCopyHelper_run (hhelper U) hmade
      ((Mem.setBlock_blocks_ne _ _ hne).trans hc) (Mem.setBlock_blocks_self ..) rfl hne.symm hcall
      hlimit
    obtain ⟨x, hx, hbe⟩ := ht.block s'.next e he
    obtain ⟨y, hy, hstored⟩ := store_run hx 8 0
      (by have := hbe.room; omega) (im.isa .mallocBlock)
    refine ⟨_, ?_, ht.setBlock he (hbe.storeIsa hstored)⟩
    rw [hstack, run_bind hw, store64, run_bind hy, run_pure]

/-! ## Copy helpers -/

/-- `*dest = value`, or nothing. -/
def storeResult (dest : Addr) (off : Nat) : Option Word → RawM Unit
  | none => pure ()
  | some value => store64 dest off value

/-- The bytes assign what the records say.  Nothing is asked of `dest`: whoever
calls knows that there is room. -/
def AssignsLike (im : Image) (U : Set Addr) (raw : Addr → Nat → Addr → Flags → RawM Unit)
    (records : Addr → Flags → M (Option Addr)) : Prop :=
  ∀ r s object flags v t, Represents im U r s → object < addressLimit →
    records object flags s = .ok (v, t) → Addressable t →
    ∃ u, Represents im U u t ∧ (∀ w, v = some w → w < addressLimit) ∧
      ∀ dest off, raw dest off object flags r = storeResult dest off v u

section

variable {raw : Addr → Nat → Addr → Flags → RawM Unit} {records : Addr → Flags → M (Option Addr)}

/-- The copy helper from the captured variable `i` on. -/
theorem copyFields_run (hassign : AssignsLike im U raw records)
    (hkeeps : ∀ object flags, Keeps none (records object flags)) (xs : List Capture) (i : Nat)
    (h : Represents im U r s) {c d : BlockCell} (hc : s.blocks src = some c)
    (hd : s.blocks dst = some d)
    (hkinds : d.layout.captured.map Capture.kind = c.layout.captured.map Capture.kind)
    (hne : dst ≠ src) (hxs : ∀ j x, xs[j]? = some x → c.layout.captured[i + j]? = some x)
    (hrun : copyFields records dst i xs s = .ok ((), t)) (hlimit : Addressable t) :
    ∃ u, copyHelper raw (helperFields i xs) dst src r = .ok ((), u) ∧ Represents im U u t := by
  induction xs generalizing i r s c d with
  | nil => exact implements_pure () _ _ _ _ h hrun hlimit
  | cons x xs ih =>
    have hrest : ∀ j y, xs[j]? = some y → c.layout.captured[i + 1 + j]? = some y := fun j y hy => by
      rw [Nat.add_right_comm]
      exact hxs (j + 1) y hy
    unfold copyFields at hrun
    unfold helperFields
    cases hflags : x.kind.flags with
    | none =>
      simp only [hflags] at hrun ⊢
      exact ih (i + 1) h hc hd hkinds hrest hrun
    | some flags =>
      simp only [hflags] at hrun ⊢
      obtain ⟨v, s', hfirst, hrun⟩ := bind_eq_ok hrun
      obtain ⟨hbound, hkept⟩ := hkeeps _ _ _ _ _ h.placed.bounded hfirst
      obtain ⟨c', hc', hcc⟩ := hkept.block src c hc (Option.some_ne_none src)
      obtain ⟨d', hd', hdd⟩ := hkept.block dst d hd (Option.some_ne_none dst)
      obtain ⟨o, ho, hb⟩ := h.block src c hc
      have hx : c.layout.captured[i]? = some x := hxs 0 x rfl
      have hsmall : x.value < addressLimit := by
        rw [← hb.captured i x hx]
        exact o.field_lt 8 _
      have hrest' : ∀ j y, xs[j]? = some y → c'.layout.captured[i + 1 + j]? = some y :=
        hcc.symm ▸ hrest
      have hkinds' : d'.layout.captured.map Capture.kind = c'.layout.captured.map Capture.kind := by
        rw [hdd, hcc]
        exact hkinds
      rw [copyHelper, run_bind (hb.captured_run ho hx)]
      cases v with
      | none =>
        have hrun' : copyFields records dst (i + 1) xs s' = .ok ((), t) := hrun
        obtain ⟨_, hlast⟩ := keeps_copyFields hkeeps dst (i + 1) xs s' () t hbound hrun'
        obtain ⟨u, hu, _, hraw⟩ := hassign _ _ _ _ _ _ h hsmall hfirst (hlast.next.trans hlimit)
        have hdone : raw dst (32 + 8 * i) x.value flags r = .ok ((), u) := hraw _ _
        rw [run_bind hdone]
        exact ih (i + 1) hu hc' hd' hkinds' hrest' hrun'
      | some w =>
        obtain ⟨_, s'', hstore, hrun⟩ := bind_eq_ok hrun
        obtain ⟨e, he, rfl⟩ := updateBlock_inv hstore
        obtain rfl : d' = e := Option.some.inj (hd'.symm.trans he)
        obtain ⟨_, hlast⟩ := keeps_copyFields hkeeps dst (i + 1) xs _ () t
          (hbound.setBlock (hbound.block_lt dst d' hd') _) hrun
        obtain ⟨u, hu, hw, hraw⟩ := hassign _ _ _ _ _ _ h hsmall hfirst (hlast.next.trans hlimit)
        obtain ⟨p, hp, hb'⟩ := hu.block dst d' hd'
        have hlength : d'.layout.captured.length = c'.layout.captured.length := by
          simpa using congrArg List.length hkinds'
        have hi : i < c'.layout.captured.length := by
          rw [hcc]
          exact (List.getElem?_eq_some_iff.1 hx).1
        obtain ⟨q, hq, hstored⟩ := store_run hp 8 (32 + 8 * i)
          (by have := hb'.room; omega) w
        have hdone : raw dst (32 + 8 * i) x.value flags r = .ok ((), u.setObject dst q) :=
          (hraw _ _).trans hq
        rw [run_bind hdone]
        refine ih (i + 1) (hu.setBlock hd' (hb'.storeCapture (hw w rfl) hstored)) ?_
          (Mem.setBlock_blocks_self ..) ?_ hrest' hrun
        · rw [Mem.setBlock_blocks_ne _ _ hne.symm]
          exact hc'
        · exact (kinds_modify _ _ _).trans hkinds'

theorem copiesLike (hassign : AssignsLike im U raw records)
    (hkeeps : ∀ object flags, Keeps none (records object flags)) :
    CopiesLike im U (copyHelper raw) (BlocksRuntime.copyHelper records) := by
  intro r s dst src c d t h hc hd hkinds hne hrun hlimit
  obtain ⟨b, s', hload, hrun⟩ := bind_eq_ok hrun
  obtain ⟨rfl, c', hc', rfl⟩ := loadBlock_inv hload
  obtain rfl : c = c' := Option.some.inj (hc.symm.trans hc')
  refine copyFields_run hassign hkeeps _ 0 h hc hd hkinds hne (fun j x hx => ?_) hrun hlimit
  rw [Nat.zero_add]
  exact hx

/-! ## `byref_keep` -/

/-- What `_Block_byref_copy` needs of the function behind `byref_keep`, which
finishes the record `dst`. -/
def KeepsLike (im : Image) (U : Set Addr) (raw : KeepCode → Addr → Addr → RawM Unit)
    (records : Addr → Addr → M Unit) : Prop :=
  ∀ r s dst src c d t, Represents im (insert dst U) r s → dst ∉ U → src ∉ insert dst U →
    s.byrefs src = some c → s.byrefs dst = some d →
    c.byref.flags &&& BLOCK_BYREF_HAS_COPY_DISPOSE ≠ 0 →
    d.byref.flags &&& BLOCK_BYREF_HAS_COPY_DISPOSE ≠ 0 → d.byref.byref2 = c.byref.byref2 →
    d.byref.storage.length = c.byref.storage.length → records dst src s = .ok ((), t) →
    Addressable t →
    ∃ h u, c.byref.byref2 = some h ∧ raw (keepCodeOf h.byrefKeep) dst src r = .ok ((), u) ∧
      Represents im U u t

/-- `_Block_object_assign` returns something for these flags. -/
def ReturnsValue (records : Addr → Flags → M (Option Addr)) : Prop :=
  ∀ s object flags v t, Assigns flags → records object flags s = .ok (v, t) → v ≠ none

/-- The store that finishes a record. -/
theorem finish_run {h : BlockByref2} {d : ByrefCell} {value : Word}
    (hs : Represents im (insert dst U) r s) (hdst : dst ∉ U) (hd : s.byrefs dst = some d)
    (hhas : d.byref.flags &&& BLOCK_BYREF_HAS_COPY_DISPOSE ≠ 0) (hh : d.byref.byref2 = some h)
    (hlt : h.byrefKeep.field < d.byref.storage.length) (hv : value < addressLimit)
    (hrun : updateByref dst (fun b => { b with
      storage := b.storage.set h.byrefKeep.field value }) s = .ok ((), t)) :
    ∃ u, store64 dst (40 + 8 * h.byrefKeep.field) value r = .ok ((), u) ∧
      Represents im U u t := by
  obtain ⟨e, he, rfl⟩ := updateByref_inv hrun
  obtain rfl : d = e := Option.some.inj (hd.symm.trans he)
  obtain ⟨o, ho, hb⟩ := hs.byref dst d hd
  obtain ⟨p, hp, hstored⟩ := store_run ho 8 (40 + 8 * h.byrefKeep.field)
    (by have := hb.helper_room hhas; omega) value
  refine ⟨_, hp, hs.storeByref (hs.placed.byref_lt dst d hd) (hs.placed.byref_ne_null hd)
    (hs.placed.block_none hd) (fun b hb => ?_) ?_⟩
  · rw [Set.mem_insert_iff, or_iff_right hb]
  · rw [eq_false hdst]
    exact hb.storeField hhas hh hv hstored

theorem keepsLike {rawCopy : Addr → RawM Addr} {blockCopy : Addr → M Addr}
    (hassign : ∀ U, AssignsLike im U raw records) (hreturns : ReturnsValue records)
    (hkeeps : ∀ object flags, Keeps none (records object flags))
    (hcopy : ∀ U a, Implements im U (rawCopy a) (blockCopy a))
    (hsmall : ∀ s a b t, Placed s → blockCopy a s = .ok (b, t) → b < t.next)
    (hcopykeeps : ∀ a, Keeps none (blockCopy a)) (U : Set Addr) :
    KeepsLike im U (byrefKeepHelper raw rawCopy)
      (BlocksRuntime.byrefKeepHelper records blockCopy) := by
  intro r s dst src c d t h hdst hsrc hc hd hhas hhas' hbyref2 hlength hrun hlimit
  obtain ⟨b, s', hload, hrun⟩ := bind_eq_ok hrun
  obtain ⟨rfl, c', hc', rfl⟩ := loadByref_inv hload
  obtain rfl : c = c' := Option.some.inj (hc.symm.trans hc')
  obtain ⟨o, ho, hb⟩ := h.byref src c hc
  cases hh : c.byref.byref2 with
  | none =>
    rw [hh] at hrun
    cases hrun
  | some h' =>
    have hkeepsField := (hb.helpers hhas h' hh).keepsField
    rw [hh] at hrun
    -- what the nested call leaves of `dst`
    have hfinish : ∀ {u s'' value}, Represents im (insert dst U) u s'' → Kept none s' s'' →
        h'.byrefKeep.field < c.byref.storage.length → value < addressLimit →
        updateByref dst (fun b => { b with
          storage := b.storage.set h'.byrefKeep.field value }) s'' = .ok ((), t) →
        ∃ v, store64 dst (40 + 8 * h'.byrefKeep.field) value u = .ok ((), v) ∧
          Represents im U v t := by
      intro u s'' value hu hkept hlt hv hstore
      obtain ⟨e, he, hsame⟩ := hkept.byref dst d hd (Option.some_ne_none dst)
      refine finish_run hu hdst he (hsame.hasCopyDispose ▸ hhas')
        (hsame.byref2.trans (hbyref2.trans hh)) ?_ hv hstore
      rw [hsame.storage, hlength]
      exact hlt
    have hword : ∀ {object}, c.byref.storage[h'.byrefKeep.field]? = some object →
        object < addressLimit := fun hget => by
      rw [← hb.field hhas hsrc h' _ hh hget]
      exact o.field_lt 8 _
    have hplace : ∀ {s'' value}, updateByref dst (fun b => { b with
        storage := b.storage.set h'.byrefKeep.field value }) s'' = .ok ((), t) →
        Addressable s'' := fun hstore => by
      obtain ⟨e, _, rfl⟩ := updateByref_inv hstore
      exact hlimit
    cases hcode : h'.byrefKeep with
    | assign field flags =>
      rw [hcode] at hkeepsField
      simp only [hcode] at hrun
      obtain rfl : h'.byrefKeep.field = field := congrArg ByrefKeep.field hcode
      obtain ⟨object, s, hread, hcall⟩ := bind_eq_ok hrun
      obtain ⟨rfl, hget⟩ := wordAt_inv hread
      obtain ⟨v, s', hfirst, hstore⟩ := bind_eq_ok hcall
      obtain ⟨w, rfl⟩ := Option.ne_none_iff_exists'.1 (hreturns _ _ _ _ _ hkeepsField hfirst)
      obtain ⟨_, hkept⟩ := hkeeps _ _ _ _ _ h.placed.bounded hfirst
      obtain ⟨u, hu, hw, hraw⟩ := hassign _ _ _ _ _ _ _ h (hword hget) hfirst (hplace hstore)
      obtain ⟨x, hx, hend⟩ := hfinish hu hkept (List.getElem?_eq_some_iff.1 hget).1 (hw w rfl)
        hstore
      refine ⟨h', x, rfl, ?_, hend⟩
      rw [hcode]
      show (load64 src (40 + 8 * h'.byrefKeep.field) >>= fun object =>
        raw dst (40 + 8 * h'.byrefKeep.field) object flags) r = _
      rw [run_bind (hb.field_run ho hhas hsrc hh hget)]
      exact (hraw _ _).trans hx
    | copy field =>
      simp only [hcode] at hrun
      obtain rfl : h'.byrefKeep.field = field := congrArg ByrefKeep.field hcode
      obtain ⟨object, s, hread, hcall⟩ := bind_eq_ok hrun
      obtain ⟨rfl, hget⟩ := wordAt_inv hread
      obtain ⟨w, s', hfirst, hstore⟩ := bind_eq_ok hcall
      obtain ⟨_, hkept⟩ := hcopykeeps _ _ _ _ h.placed.bounded hfirst
      have hlim := hplace hstore
      obtain ⟨u, hu, hmid⟩ := hcopy _ _ _ _ _ _ h hfirst hlim
      have hw := Nat.lt_of_lt_of_le (hsmall _ _ _ _ h.placed hfirst) hlim
      obtain ⟨x, hx, hend⟩ := hfinish hmid hkept (List.getElem?_eq_some_iff.1 hget).1 hw hstore
      refine ⟨h', x, rfl, ?_, hend⟩
      rw [hcode]
      show (load64 src (40 + 8 * h'.byrefKeep.field) >>= fun object =>
        rawCopy object >>= fun value => store64 dst (40 + 8 * h'.byrefKeep.field) value) r = _
      rw [run_bind (hb.field_run ho hhas hsrc hh hget), run_bind hu]
      exact hx

end

/-! ## `_Block_byref_copy` -/

section Filling

variable {b : BlockByref} {u : Prop} {o p : Object}

/-- The stores into the header of the new object, and into the forwarding
pointer of the old one. -/
theorem header_run (hb : ByrefBytes im u src b o) (ho : r.objects src = some o)
    (hp : r.objects dst = some p) (hsize : p.size = b.size.toNat) (hne : src ≠ dst)
    (hlt : dst < addressLimit) :
    ∃ p' q, p'.size = b.size.toNat ∧ o.Stored 8 8 dst q ∧
      HeaderBytes im { b with
        isa := .nil, forwarding := dst, flags := heapByrefFlags b.flags } p' ∧
      ∀ {β : Type} (k : RawM β), (do
        store64 dst 0 NULL
        let flags ← load32 src 16
        store32 dst 16 (flags ||| BLOCK_BYREF_NEEDS_FREE ||| 4)
        store64 dst 8 dst
        store64 src 8 dst
        let size ← load32 src 20
        store32 dst 20 size
        k) r = k ((r.setObject dst p').setObject src q) := by
  have hroom : 24 ≤ p.size := by
    have := byrefHeader_le b
    have := hb.fits
    omega
  have hroom' := hb.header_room
  obtain ⟨p₁, h₁, hs₁⟩ := store_run hp 8 0 (by omega) NULL
  have hself : ∀ q, (r.setObject dst q).objects dst = some q := setObject_self r dst
  have hother : ∀ q, (r.setObject dst q).objects src = some o := fun q =>
    (setObject_ne r q hne).trans ho
  have hz₁ := hs₁.size
  obtain ⟨p₂, h₂, hs₂⟩ := store_run (hself p₁) 4 16 (by omega)
    (heapByrefFlags b.flags).toNat
  have hz₂ := hs₂.size
  obtain ⟨p₃, h₃, hs₃⟩ := store_run (hself p₂) 8 8 (by omega) dst
  have hz₃ := hs₃.size
  obtain ⟨q, hq, hsq⟩ := store_run (hother p₃) 8 8 (by omega) dst
  have hz := hsq.size
  have hq₃ : ((r.setObject dst p₃).setObject src q).objects dst = some p₃ :=
    (setObject_ne _ q hne.symm).trans (hself p₃)
  obtain ⟨p₄, h₄, hs₄⟩ := store_run hq₃ 4 20 (by omega) b.size.toNat
  have hz₄ := hs₄.size
  refine ⟨p₄, q, by omega, hsq, ⟨?_, ?_, ?_, hs₄.hit b.size.isLt⟩, fun k => ?_⟩
  · rw [hs₄.miss 8 0 (by decide), hs₃.miss 8 0 (by decide), hs₂.miss 8 0 (by decide),
      hs₁.hit (by decide), im.isa_nil]
  · rw [hs₄.miss 8 8 (by decide)]
    exact hs₃.hit hlt
  · rw [hs₄.miss 4 16 (by decide), hs₃.miss 4 16 (by decide)]
    exact hs₂.hit (heapByrefFlags b.flags).isLt
  · have hsize' : load32 src 20 ((r.setObject dst p₃).setObject src q) = .ok (b.size, _) :=
      load32_run (setObject_self _ src q) (by omega) ((hsq.miss 4 20 (by decide)).trans hb.size)
    rw [store64, run_bind h₁, run_bind (hb.flags_run (hother p₁)), store32]
    show (store 4 dst 16 (heapByrefFlags b.flags).toNat >>= _) _ = _
    rw [run_bind h₂, setObject_twice, store64, run_bind h₃, setObject_twice, store64,
      run_bind hq, run_bind hsize', store32, run_bind h₄, setObject_comm _ _ _ hne,
      setObject_twice, setObject_comm _ _ _ hne.symm]

/-- The stores into `struct Block_byref_2` and `struct Block_byref_3`. -/
theorem pointers_run (hb : ByrefBytes im u src b o)
    (hhas : b.flags &&& BLOCK_BYREF_HAS_COPY_DISPOSE ≠ 0)
    (hext : b.flags &&& BLOCK_BYREF_LAYOUT_EXTENDED ≠ 0 → 0 < b.storage.length)
    (ho : r.objects src = some o) (hp : r.objects dst = some p)
    (hsize : p.size = b.size.toNat) (hne : src ≠ dst) :
    ∃ p', p'.size = b.size.toNat ∧ (∀ n off, off + n ≤ 24 → p'.field n off = p.field n off) ∧
      p'.field 8 24 = o.field 8 24 ∧ p'.field 8 32 = o.field 8 32 ∧
      (b.flags &&& BLOCK_BYREF_LAYOUT_EXTENDED ≠ 0 → p'.field 8 40 = o.field 8 40) ∧
      ∀ {β : Type} (k : RawM β), (do
        let byrefKeepFn ← load64 src 24
        store64 dst 24 byrefKeepFn
        let byrefDestroyFn ← load64 src 32
        store64 dst 32 byrefDestroyFn
        let flags ← load32 src 16
        if flags &&& BLOCK_BYREF_LAYOUT_EXTENDED ≠ 0 then
          let layout ← load64 src 40
          store64 dst 40 layout
        k) r = k (r.setObject dst p') := by
  have hroom : 40 + 8 * b.storage.length ≤ p.size := by
    have hfits := hb.fits
    rw [byrefHeader_helpers hhas] at hfits
    omega
  have hroom' := hb.helper_room hhas
  have hself : ∀ q, (r.setObject dst q).objects dst = some q := setObject_self r dst
  have hother : ∀ q, (r.setObject dst q).objects src = some o := fun q =>
    (setObject_ne r q hne).trans ho
  obtain ⟨p₁, h₁, hs₁⟩ := store_run hp 8 24 (by omega) (o.field 8 24)
  have hz₁ := hs₁.size
  obtain ⟨p₂, h₂, hs₂⟩ := store_run (hself p₁) 8 32 (by omega) (o.field 8 32)
  have hz₂ := hs₂.size
  have hkeep : p₂.field 8 24 = o.field 8 24 :=
    (hs₂.miss 8 24 (by decide)).trans (hs₁.hit (o.field_lt 8 24))
  have hlow : ∀ n off, off + n ≤ 24 → p₂.field n off = p.field n off := fun n off hle =>
    (hs₂.miss n off (by omega)).trans (hs₁.miss n off (by omega))
  by_cases hextended : b.flags &&& BLOCK_BYREF_LAYOUT_EXTENDED ≠ 0
  · have hlength := hext hextended
    obtain ⟨p₃, h₃, hs₃⟩ := store_run (hself p₂) 8 40 (by omega) (o.field 8 40)
    have hz₃ := hs₃.size
    refine ⟨p₃, by omega, fun n off hle => ?_, ?_, ?_, fun _ => hs₃.hit (o.field_lt 8 40),
      fun k => ?_⟩
    · exact (hs₃.miss n off (by omega)).trans (hlow n off hle)
    · exact (hs₃.miss 8 24 (by decide)).trans hkeep
    · exact (hs₃.miss 8 32 (by decide)).trans (hs₂.hit (o.field_lt 8 32))
    · rw [run_bind (hb.helper_run ho hhas 24 (by decide)), store64, run_bind h₁,
        run_bind (hb.helper_run (hother p₁) hhas 32 (by decide)), store64, run_bind h₂,
        setObject_twice, run_bind (hb.flags_run (hother p₂)), if_pos hextended,
        run_bind (load64_run (hother p₂) (by omega)), store64, run_bind h₃, setObject_twice]
  · refine ⟨p₂, by omega, hlow, hkeep, hs₂.hit (o.field_lt 8 32), fun h => absurd h hextended,
      fun k => ?_⟩
    rw [run_bind (hb.helper_run ho hhas 24 (by decide)), store64, run_bind h₁,
      run_bind (hb.helper_run (hother p₁) hhas 32 (by decide)), store64, run_bind h₂,
      setObject_twice, run_bind (hb.flags_run (hother p₂)), if_neg hextended]

end Filling

/-- `_Block_byref_copy` on a record that forwards to one without references, up
to the test for helpers. -/
theorem blockByrefCopyBody_forwarded {env : Env} {records : Addr → Addr → M Unit} {c d : ByrefCell}
    (hc : s.byrefs a = some c) (hd : s.byrefs c.byref.forwarding = some d)
    (hzero : d.byref.flags &&& BLOCK_REFCOUNT_MASK = 0) (hne : a ≠ s.next)
    (hm : env.mallocOk s.mallocs = true) :
    BlocksRuntime.blockByrefCopyBody env records a s =
      (do
        if c.byref.flags &&& BLOCK_BYREF_HAS_COPY_DISPOSE ≠ 0 then
          updateByref s.next fun b => { b with byref2 := c.byref.byref2 }
          if c.byref.flags &&& BLOCK_BYREF_LAYOUT_EXTENDED ≠ 0 then
            let layout ← wordAt c.byref.storage 0
            updateByref s.next fun b => { b with storage := b.storage.set 0 layout }
          BlocksRuntime.log (.byrefKeep s.next)
          records s.next a
        else
          updateByref s.next fun b =>
            { b with byref2 := c.byref.byref2, storage := c.byref.storage }
        let src ← loadByref a
        return src.forwarding : M Addr) (s.moving a c (blankRecord env c.byref s.next)) := by
  unfold BlocksRuntime.blockByrefCopyBody
  rw [bind_ok (loadByref_ok hc), bind_ok (loadByref_ok hd), if_pos hzero, bind_ok (malloc_ok hm)]
  simp only
  rw [bind_ok (log_apply _ _), bind_ok (storeByref_apply _ _ _),
    bind_ok (updateByref_ok (c := c) (by simp [hne, hc]) _)]
  have hstart : ∀ e, ((({ s with next := s.next + 1, mallocs := s.mallocs + 1 } : Mem).log
      (.mallocByref a s.next)).setByref s.next e).setByref a
        { c with byref := { c.byref with forwarding := s.next } } = s.moving a c e := by
    intro e
    simp only [Mem.moving, Mem.setByref, Mem.log, Function.update_comm hne.symm,
      ByrefCell.forward]
  rw [hstart]
  rfl

/-- The two objects of a move hold their records. -/
theorem Represents.moving {V : Set Addr} {c d : ByrefCell} {o p : Object}
    (h : Represents im (insert s.next U) r
      (({ s with next := s.next + 1, mallocs := s.mallocs + 1 } : Mem).log (.mallocByref a s.next)))
    (hs : Placed s) (hc : s.byrefs a = some c) (hV : ∀ b, b ≠ s.next → (b ∈ V ↔ b ∈ U))
    (hp : ByrefBytes im (s.next ∈ V) s.next d.byref p)
    (ho : ByrefBytes im (a ∈ U) a (c.forward s.next).byref o) :
    Represents im V ((r.setObject s.next p).setObject a o) (s.moving a c d) := by
  have hne : a ≠ s.next := (hs.byref_lt a c hc).ne
  have hmem : ∀ b, b ≠ s.next → (b ∈ insert s.next U ↔ b ∈ U) := fun b hb => by
    rw [Set.mem_insert_iff, or_iff_right hb]
  rw [← propext (hmem a hne)] at ho
  have hold := h.setByref (d := c.forward s.next) hc ho
  have hnew := hold.storeByref (a := s.next) (d := d) (Nat.lt_succ_self _) hs.pos.ne' hs.block_next
    (fun b hb => (hV b hb).trans (hmem b hb).symm) hp
  rw [setObject_comm _ _ _ hne]
  exact hnew

/-- `return src->forwarding`. -/
theorem forwarding_run {b : Addr} (h : Represents im U r s)
    (hrun : (do
      let src ← loadByref a
      return src.forwarding : M Addr) s = .ok (b, t)) :
    load64 a 8 r = .ok (b, r) ∧ Represents im U r t := by
  obtain ⟨_, s', hload, hrun⟩ := bind_eq_ok hrun
  obtain ⟨rfl, c, hc, rfl⟩ := loadByref_inv hload
  obtain ⟨rfl, rfl⟩ := Prod.mk.inj (Except.ok.inj hrun)
  obtain ⟨o, ho, hb⟩ := h.byref a c hc
  exact ⟨hb.forwarding_run ho, h⟩

theorem Bounded.moving (hs : Bounded s) (ha : a < s.next) (c d : ByrefCell) :
    Bounded (s.moving a c d) :=
  ((hs.bump _ _).setByref (Nat.lt_succ_of_lt ha) _).setByref (Nat.lt_succ_self _) _

/-- A word has references after an increment. -/
theorem refcount_incr_ne (w : Flags) :
    refcount ((latchingIncrInt w).run w).2 ≠ 0 := by
  obtain ⟨_, v, hv, hcount, _⟩ := incr_run_views w
  have hpos := latched_pos
  rw [hv]
  simp only [hcount]
  omega

section

variable {raw : KeepCode → Addr → Addr → RawM Unit} {records : Addr → Addr → M Unit}

/-- The call of `byref_keep`, and the result. -/
theorem keepCall_run {c d : ByrefCell} {b : Addr} {o : Object} (hkeep : KeepsLike im U raw records)
    (h : Represents im (insert dst U) r s) (hdst : dst ∉ U) (ha : a ∉ insert dst U)
    (hc : s.byrefs a = some c) (hd : s.byrefs dst = some d) (ho : r.objects a = some o)
    (hhas : c.byref.flags &&& BLOCK_BYREF_HAS_COPY_DISPOSE ≠ 0)
    (hhas' : d.byref.flags &&& BLOCK_BYREF_HAS_COPY_DISPOSE ≠ 0)
    (hbyref2 : d.byref.byref2 = c.byref.byref2)
    (hlength : d.byref.storage.length = c.byref.storage.length)
    (hrun : (do
      BlocksRuntime.log (.byrefKeep dst)
      records dst a
      let src ← loadByref a
      return src.forwarding : M Addr) s = .ok (b, t)) (hlimit : Addressable t) :
    ∃ u, (do
      let byrefKeepFn ← load64 a 24
      log (.byrefKeep dst)
      callCode (im.keepCode byrefKeepFn) fun code => raw code dst a
      load64 a 8 : RawM Addr) r = .ok (b, u) ∧ Represents im U u t := by
  rw [bind_ok (log_apply _ _)] at hrun
  obtain ⟨_, t', hcall, hrun⟩ := bind_eq_ok hrun
  have hlimit' : Addressable t' := by
    obtain ⟨_, t'', hload, hreturn⟩ := bind_eq_ok hrun
    obtain ⟨rfl, _⟩ := loadByref_inv hload
    obtain ⟨_, rfl⟩ := Prod.mk.inj (Except.ok.inj hreturn)
    exact hlimit
  have hb := h.byrefBytes hc ho
  obtain ⟨h', u, hh, hu, hmid⟩ := hkeep _ _ dst a c d t' (h.log (.byrefKeep dst)) hdst ha hc hd
    hhas hhas' hbyref2 hlength hcall hlimit'
  obtain ⟨hload, hend⟩ := forwarding_run hmid hrun
  refine ⟨u, ?_, hend⟩
  rw [run_bind (hb.helper_run ho hhas 24 (by decide)), run_bind (run_log _ _),
    (hb.helpers hhas h' hh).keep, callCode_some, run_bind hu]
  exact hload

/-- The heap record of a move, with the words `words`. -/
def movedRecord (c : ByrefCell) (v : Addr) (words : List Word) : ByrefCell :=
  ⟨.heap, { c.byref with
    isa := .nil
    forwarding := v
    flags := heapByrefFlags c.byref.flags
    storage := words }⟩

/-- The headers of a move are there: `o` was the variable at `a`, `q` forwards to
the new object, and `p` is the new object, with junk after its header. -/
structure HeadersMoved (im : Image) (U : Set Addr) (r : RawMem) (s : Mem) (a : Addr)
    (c : ByrefCell) (o p q : Object) : Prop where
  represents : Represents im (insert s.next U) r
    (({ s with next := s.next + 1, mallocs := s.mallocs + 1 } : Mem).log (.mallocByref a s.next))
  placed : Placed s
  cell : s.byrefs a = some c
  source : ByrefBytes im (a ∈ U) a c.byref o
  forwarded : ByrefBytes im (a ∈ U) a (c.forward s.next).byref q
  stored : o.Stored 8 8 s.next q
  size : p.size = c.byref.size.toNat
  header : HeaderBytes im { c.byref with
    isa := .nil, forwarding := s.next, flags := heapByrefFlags c.byref.flags } p
  notUnfinished : a ∉ U
  fresh : s.next ∉ U

namespace HeadersMoved

variable {c : ByrefCell} {o p q : Object}

theorem ne_next (h : HeadersMoved im U r s a c o p q) : a ≠ s.next :=
  (h.placed.byref_lt a c h.cell).ne

theorem object_next (h : HeadersMoved im U r s a c o p q) :
    ((r.setObject s.next p).setObject a q).objects s.next = some p :=
  (setObject_ne _ q h.ne_next.symm).trans (setObject_self r s.next p)

/-- A store into the new object. -/
theorem setObject_next (h : HeadersMoved im U r s a c o p q) (p' : Object) :
    ((r.setObject s.next p).setObject a q).setObject s.next p' =
      (r.setObject s.next p').setObject a q := by
  rw [setObject_comm _ _ _ h.ne_next, setObject_twice, setObject_comm _ _ _ h.ne_next.symm]

/-- The words that the new record has before its helper runs: junk, but for an
extended layout. -/
theorem words_before_helper {env : Env} {b : Addr} {rest : M Addr}
    (hrun : (do
      if c.byref.flags &&& BLOCK_BYREF_LAYOUT_EXTENDED ≠ 0 then
        let layout ← wordAt c.byref.storage 0
        updateByref s.next fun b => { b with storage := b.storage.set 0 layout }
      rest : M Addr) (s.moving a c
        (movedRecord c s.next ((List.range c.byref.storage.length).map env.junk))) = .ok (b, t)) :
    ∃ words : List Word, words.length = c.byref.storage.length ∧
      (c.byref.flags &&& BLOCK_BYREF_LAYOUT_EXTENDED ≠ 0 →
        0 < c.byref.storage.length ∧ words[0]? = c.byref.storage[0]?) ∧
      rest (s.moving a c (movedRecord c s.next words)) = .ok (b, t) := by
  by_cases hext : c.byref.flags &&& BLOCK_BYREF_LAYOUT_EXTENDED ≠ 0
  · rw [if_pos hext] at hrun
    obtain ⟨layout, s', hread, hrest⟩ := bind_eq_ok hrun
    obtain ⟨rfl, hget⟩ := wordAt_inv hread
    rw [bind_ok (updateByref_moving ..)] at hrest
    have hpos := (List.getElem?_eq_some_iff.1 hget).1
    refine ⟨_, ?_, fun _ => ⟨hpos, ?_⟩, hrest⟩
    · simp [movedRecord]
    · rw [hget, List.getElem?_set_self]
      simpa [movedRecord] using hpos
  · rw [if_neg hext] at hrun
    exact ⟨_, by simp, fun h => absurd h hext, hrun⟩

/-- The rest of a move with helpers. -/
theorem helpers_run {env : Env} {b : Addr} (hkeep : KeepsLike im U raw records)
    (h : HeadersMoved im U r s a c o p q)
    (hhas : c.byref.flags &&& BLOCK_BYREF_HAS_COPY_DISPOSE ≠ 0)
    (hrun : (do
      updateByref s.next fun b => { b with byref2 := c.byref.byref2 }
      if c.byref.flags &&& BLOCK_BYREF_LAYOUT_EXTENDED ≠ 0 then
        let layout ← wordAt c.byref.storage 0
        updateByref s.next fun b => { b with storage := b.storage.set 0 layout }
      BlocksRuntime.log (.byrefKeep s.next)
      records s.next a
      let src ← loadByref a
      return src.forwarding : M Addr) (s.moving a c (blankRecord env c.byref s.next)) = .ok (b, t))
    (hlimit : Addressable t) :
    ∃ u, (do
      let byrefKeepFn ← load64 a 24
      store64 s.next 24 byrefKeepFn
      let byrefDestroyFn ← load64 a 32
      store64 s.next 32 byrefDestroyFn
      let flags ← load32 a 16
      if flags &&& BLOCK_BYREF_LAYOUT_EXTENDED ≠ 0 then
        let layout ← load64 a 40
        store64 s.next 40 layout
      let byrefKeepFn ← load64 a 24
      log (.byrefKeep s.next)
      callCode (im.keepCode byrefKeepFn) fun code => raw code s.next a
      load64 a 8 : RawM Addr) ((r.setObject s.next p).setObject a q) = .ok (b, u) ∧
      Represents im U u t := by
  have hne := h.ne_next
  have haq := setObject_self (r.setObject s.next p) a q
  rw [bind_ok (updateByref_moving ..)] at hrun
  obtain ⟨words, hlength, hlayout, hcall⟩ := words_before_helper hrun
  obtain ⟨p', hsize', hlow, hkeepFn, hdestroyFn, hlayoutWord, hstores⟩ :=
    pointers_run h.forwarded hhas (fun hext => (hlayout hext).1) haq h.object_next h.size hne
  have hfilled : ByrefBytes im True s.next (movedRecord c s.next words).byref p' := by
    refine ByrefBytes.of_helpers h.source hhas ⟨?_, ?_, ?_, ?_⟩ hsize' hlength ?_ ?_
      fun hext => ⟨?_, ?_⟩
    · exact (hlow 8 0 (by decide)).trans h.header.isa
    · exact (hlow 8 8 (by decide)).trans h.header.forwarding
    · exact (hlow 4 16 (by decide)).trans h.header.flags
    · exact (hlow 4 20 (by decide)).trans h.header.size
    · exact hkeepFn.trans (h.stored.miss 8 24 (by decide))
    · exact hdestroyFn.trans (h.stored.miss 8 32 (by decide))
    · exact (hlayoutWord hext).trans (h.stored.miss 8 40 (by decide))
    · exact (hlayout hext).2
  rw [← eq_true (Set.mem_insert s.next U)] at hfilled
  have hmoved := h.represents.moving (V := insert s.next U) h.placed h.cell
    (fun b hb => by rw [Set.mem_insert_iff, or_iff_right hb]) hfilled h.forwarded
  have ha : a ∉ insert s.next U := fun hmem => hmem.elim hne h.notUnfinished
  have hhas' : heapByrefFlags c.byref.flags &&& BLOCK_BYREF_HAS_COPY_DISPOSE ≠ 0 := by
    rw [heapByrefFlags_other _ (by decide)]
    exact hhas
  obtain ⟨u, hu, hend⟩ := keepCall_run hkeep hmoved h.fresh ha (Mem.moving_variable c _ hne)
    (s.moving_self a c _) (setObject_self _ a q) hhas hhas' rfl hlength hcall hlimit
  refine ⟨u, (hstores _).trans ?_, hend⟩
  rw [h.setObject_next]
  exact hu

/-- The rest of a move without helpers. -/
theorem plain_run {env : Env} {b : Addr} (h : HeadersMoved im U r s a c o p q)
    (hzero : c.byref.flags &&& BLOCK_BYREF_HAS_COPY_DISPOSE = 0)
    (hrun : (do
      updateByref s.next fun b => { b with byref2 := c.byref.byref2, storage := c.byref.storage }
      let src ← loadByref a
      return src.forwarding : M Addr) (s.moving a c (blankRecord env c.byref s.next)) =
        .ok (b, t)) :
    ∃ u, (do
      let size ← load32 a 20
      memmove s.next 24 a 24 (size.toNat - 24)
      load64 a 8 : RawM Addr) ((r.setObject s.next p).setObject a q) = .ok (b, u) ∧
      Represents im U u t := by
  have haq := setObject_self (r.setObject s.next p) a q
  rw [bind_ok (updateByref_moving ..)] at hrun
  have hroom : 24 ≤ c.byref.size.toNat := by
    have := byrefHeader_le c.byref
    have := h.source.fits
    omega
  have hpsize := h.size
  have hqsize := h.stored.size
  have horoom := h.source.room
  obtain ⟨p', hmove, hblit⟩ := memmove_run h.object_next haq 24 24
    (c.byref.size.toNat - 24) (by omega) (by omega)
  have hplain : ByrefBytes im (s.next ∈ U) s.next
      (movedRecord c s.next c.byref.storage).byref p' := by
    refine ByrefBytes.of_plain h.source hzero ⟨?_, ?_, ?_, ?_⟩ (hblit.size.trans h.size) ?_ h.fresh
    · exact (hblit.miss 8 0 (by omega)).trans h.header.isa
    · exact (hblit.miss 8 8 (by omega)).trans h.header.forwarding
    · exact (hblit.miss 4 16 (by omega)).trans h.header.flags
    · exact (hblit.miss 4 20 (by omega)).trans h.header.size
    · intro off hlow hhigh
      rw [hblit.hit 8 off hlow (by omega), h.stored.miss 8 _ (by omega)]
      congr 1
      omega
  have hmoved := h.represents.moving h.placed h.cell (fun _ _ => Iff.rfl) hplain h.forwarded
  obtain ⟨hload, hend⟩ := forwarding_run hmoved hrun
  refine ⟨_, ?_, hend⟩
  rw [run_bind (h.forwarded.size_run haq)]
  show (memmove s.next 24 a 24 (c.byref.size.toNat - 24) >>= fun _ => load64 a 8) _ = _
  rw [run_bind hmove, h.setObject_next]
  exact hload

/-- The rest of a move, once both headers are there. -/
theorem fill_run {env : Env} {b : Addr} (hkeep : KeepsLike im U raw records)
    (h : HeadersMoved im U r s a c o p q)
    (hrun : (do
      if c.byref.flags &&& BLOCK_BYREF_HAS_COPY_DISPOSE ≠ 0 then
        updateByref s.next fun b => { b with byref2 := c.byref.byref2 }
        if c.byref.flags &&& BLOCK_BYREF_LAYOUT_EXTENDED ≠ 0 then
          let layout ← wordAt c.byref.storage 0
          updateByref s.next fun b => { b with storage := b.storage.set 0 layout }
        BlocksRuntime.log (.byrefKeep s.next)
        records s.next a
      else
        updateByref s.next fun b => { b with byref2 := c.byref.byref2, storage := c.byref.storage }
      let src ← loadByref a
      return src.forwarding : M Addr) (s.moving a c (blankRecord env c.byref s.next)) = .ok (b, t))
    (hlimit : Addressable t) :
    ∃ u, (do
      let flags ← load32 a 16
      if flags &&& BLOCK_BYREF_HAS_COPY_DISPOSE ≠ 0 then
        let byrefKeepFn ← load64 a 24
        store64 s.next 24 byrefKeepFn
        let byrefDestroyFn ← load64 a 32
        store64 s.next 32 byrefDestroyFn
        let flags ← load32 a 16
        if flags &&& BLOCK_BYREF_LAYOUT_EXTENDED ≠ 0 then
          let layout ← load64 a 40
          store64 s.next 40 layout
        let byrefKeepFn ← load64 a 24
        log (.byrefKeep s.next)
        callCode (im.keepCode byrefKeepFn) fun code => raw code s.next a
      else
        let size ← load32 a 20
        memmove s.next 24 a 24 (size.toNat - 24)
      load64 a 8 : RawM Addr) ((r.setObject s.next p).setObject a q) = .ok (b, u) ∧
      Represents im U u t := by
  rw [run_bind (h.forwarded.flags_run (setObject_self _ a q))]
  show ∃ u, (if c.byref.flags &&& BLOCK_BYREF_HAS_COPY_DISPOSE ≠ 0 then _ else _ : RawM Addr) _ =
    _ ∧ _
  by_cases hhas : c.byref.flags &&& BLOCK_BYREF_HAS_COPY_DISPOSE ≠ 0
  · rw [if_pos hhas] at hrun ⊢
    exact h.helpers_run hkeep hhas hrun hlimit
  · rw [if_neg hhas] at hrun ⊢
    exact h.plain_run (not_not.1 hhas) hrun

end HeadersMoved

theorem implements_blockByrefCopyBody (hkeep : ∀ U, KeepsLike im U raw records)
    (hkeeps : ∀ dst src, Keeps (some dst) (records dst src)) (U : Set Addr) (a : Addr) :
    Implements im U (blockByrefCopyBody im env raw a)
      (BlocksRuntime.blockByrefCopyBody (env.toEnv junk) records a) := by
  intro r s b t h hrun hlimit
  obtain ⟨_, s', hload, hrest⟩ := bind_eq_ok hrun
  obtain ⟨rfl, c, hc, rfl⟩ := loadByref_inv hload
  obtain ⟨_, s, hload, hrest⟩ := bind_eq_ok hrest
  obtain ⟨rfl, d, hd, rfl⟩ := loadByref_inv hload
  obtain ⟨o, ho, hb⟩ := h.byref a c hc
  obtain ⟨o', ho', hb'⟩ := h.byref c.byref.forwarding d hd
  rw [blockByrefCopyBody, run_bind (hb.forwarding_run ho), run_bind (hb'.flags_run ho')]
  by_cases hzero : d.byref.flags &&& BLOCK_REFCOUNT_MASK = 0
  · rw [if_pos hzero] at hrest ⊢
    cases hm : env.mallocOk s.mallocs with
    | false =>
      have hm' : (env.toEnv junk).mallocOk s.mallocs = false := hm
      rw [bind_ok (malloc_none hm')] at hrest
      cases hrest
    | true =>
      have hlt := h.placed.byref_lt a c hc
      have hne : a ≠ s.next := hlt.ne
      rw [blockByrefCopyBody_forwarded hc hd hzero hne hm] at hrun
      have ha : a ∉ U := fun hu => by
        obtain ⟨hself, hcount⟩ := hb.unfinished hu
        rw [hself, hc, Option.some.injEq] at hd
        exact hcount ((and_refcount_mask_eq_zero _).1 (hd ▸ hzero))
      have hnext : s.next ∉ U := fun hu => absurd (h.unfinished_lt _ hu) (Nat.lt_irrefl _)
      obtain ⟨_, hlast⟩ := keeps_finishByrefCopy hkeeps c.byref s.next a _ _ _
        (h.placed.bounded.moving hlt c _) hrun
      have hroom : s.next + 1 ≤ addressLimit := hlast.next.trans hlimit
      -- the new object and its header
      obtain ⟨p₀, u, hmalloc, hsize, hnew, hold, hu⟩ := h.malloc_run hm hroom c.byref.size.toNat
      obtain ⟨v, hlog, hobjects, hv⟩ := log_run hu (.mallocByref a s.next)
      have hao : v.objects a = some o := hobjects ▸ (hold a hne).trans ho
      have hro : v.objects s.next = some p₀ := hobjects ▸ hnew
      obtain ⟨p, q, hpsize, hq, hheader, hstores⟩ := header_run hb hao hro hsize hne hroom
      have hbq := hb.storeForwarding hq hroom ha
      have hmoved : HeadersMoved im U v s a c o p q :=
        ⟨hv, h.placed, hc, hb, hbq, hq, hpsize, hheader, ha, hnext⟩
      obtain ⟨x, hx, hend⟩ := hmoved.fill_run (hkeep U) hrun hlimit
      refine ⟨x, ?_, hend⟩
      rw [run_bind (hb.size_run ho), run_bind hmalloc, run_bind hlog]
      exact (hstores _).trans hx
  · rw [if_neg hzero] at hrest ⊢
    rw [run_bind (hb.forwarding_run ho), run_bind (hb'.flags_run ho')]
    by_cases hfree : d.byref.flags &&& BLOCK_BYREF_NEEDS_FREE = BLOCK_BYREF_NEEDS_FREE
    · rw [if_pos hfree] at hrest ⊢
      obtain ⟨count, t', hloop, hreturn⟩ := bind_eq_ok hrest
      obtain ⟨u, hu, hmid⟩ := h.loopByref high_incr_run (fun _ w _ => refcount_incr_ne w) hloop
      obtain ⟨hload, hend⟩ := forwarding_run hmid hreturn
      refine ⟨u, ?_, hend⟩
      rw [run_bind (hb.forwarding_run ho), run_bind hu]
      exact hload
    · rw [if_neg hfree] at hrest ⊢
      obtain ⟨hload, hend⟩ := forwarding_run h hrest
      exact ⟨r, hload, hend⟩

end

/-! ## Results -/

/-- The result of `_Block_copy` is an address that was handed out, or `NULL`. -/
theorem blockCopyBody_lt {env : Env} {records : Addr → Addr → M Unit} {b : Addr}
    (hkeeps : ∀ dst src, Keeps (some dst) (records dst src)) (hs : Placed s)
    (hrun : BlocksRuntime.blockCopyBody env records a s = .ok (b, t)) : b < t.next := by
  obtain ⟨_, hkept⟩ := keeps_blockCopyBody hkeeps a s b t hs.bounded hrun
  have hnext := hkept.next
  have hcopy := hrun
  unfold BlocksRuntime.blockCopyBody at hrun
  by_cases hnull : a = NULL
  · rw [if_pos hnull] at hrun
    obtain ⟨rfl, rfl⟩ := Prod.mk.inj (Except.ok.inj hrun)
    exact hs.pos
  rw [if_neg hnull] at hrun
  obtain ⟨_, s', hload, hrun⟩ := bind_eq_ok hrun
  obtain ⟨rfl, c, hc, rfl⟩ := loadBlock_inv hload
  have ha := Nat.lt_of_lt_of_le (hs.block_lt a c hc) hnext
  by_cases hfree : c.layout.flags &&& BLOCK_NEEDS_FREE ≠ 0
  · rw [if_pos hfree] at hrun
    obtain ⟨_, s'', _, hrun⟩ := bind_eq_ok hrun
    obtain ⟨rfl, rfl⟩ := Prod.mk.inj (Except.ok.inj hrun)
    exact ha
  rw [if_neg hfree] at hrun
  by_cases hglobal : c.layout.flags &&& BLOCK_IS_GLOBAL ≠ 0
  · rw [if_pos hglobal] at hrun
    obtain ⟨rfl, rfl⟩ := Prod.mk.inj (Except.ok.inj hrun)
    exact ha
  rw [if_neg hglobal] at hrun
  cases hm : env.mallocOk s'.mallocs with
  | false =>
    rw [bind_ok (malloc_none hm)] at hrun
    obtain ⟨rfl, rfl⟩ := Prod.mk.inj (Except.ok.inj hrun)
    exact hs.pos
  | true =>
    obtain ⟨rfl, u, e, hcall, _, rfl⟩ := blockCopyBody_made hc hnull hfree hglobal hm hcopy
    exact (keeps_blockCallCopyHelper (hkeeps s'.next a) _ _ _
      (kept_halfCopy hs.bounded a c).1 hcall).2.next

/-- The result of `_Block_byref_copy` is the forwarding pointer. -/
theorem blockByrefCopyBody_ends {env : Env} {records : Addr → Addr → M Unit} (a : Addr) :
    EndsWith (fun b t => ∃ c, t.byrefs a = some c ∧ c.byref.forwarding = b)
      (BlocksRuntime.blockByrefCopyBody env records a) := by
  have hreturn : EndsWith (fun b (t : Mem) => ∃ c, t.byrefs a = some c ∧ c.byref.forwarding = b)
      (do
        let src ← loadByref a
        return src.forwarding : M Addr) := by
    intro s b t hrun
    obtain ⟨_, s', hload, hrun⟩ := bind_eq_ok hrun
    obtain ⟨rfl, c, hc, rfl⟩ := loadByref_inv hload
    obtain ⟨rfl, rfl⟩ := Prod.mk.inj (Except.ok.inj hrun)
    exact ⟨c, hc, rfl⟩
  refine .bind fun src => .bind fun target => .ite (.bind fun copy => ?_)
    (.ite (.bind fun _ => hreturn) hreturn)
  cases copy with
  | none => exact .bind fun _ => hreturn
  | some copy =>
    refine .bind fun _ => .bind fun _ => .bind fun _ => .ite (.bind fun _ => ?_)
      (.bind fun _ => hreturn)
    exact .ite (.bind fun _ => .bind fun _ => .bind fun _ => .bind fun _ => hreturn)
      (.bind fun _ => .bind fun _ => hreturn)

theorem Represents.forwarding_lt {b : Addr} (h : Represents im U r s)
    (hb : ∃ c, s.byrefs a = some c ∧ c.byref.forwarding = b) : b < addressLimit := by
  obtain ⟨c, hc, rfl⟩ := hb
  obtain ⟨o, _, hbytes⟩ := h.byref a c hc
  rw [← hbytes.forwarding]
  exact o.field_lt 8 8

/-! ## `_Block_object_assign` -/

section

variable {rawCopy rawByrefCopy : Addr → RawM Addr} {blockCopy blockByrefCopy : Addr → M Addr}

theorem returnsValue (blockCopy blockByrefCopy : Addr → M Addr) :
    ReturnsValue (BlocksRuntime.blockObjectAssignBody
      (fun o => BlocksRuntime.log (.retainObject o)) blockCopy blockByrefCopy) := by
  have hsome : ∀ x : Addr, EndsWith (fun v _ => v ≠ none) (pure (some x) : M (Option Addr)) := by
    intro x s v t hrun
    obtain ⟨rfl, _⟩ := Prod.mk.inj (Except.ok.inj hrun)
    exact Option.some_ne_none x
  intro s object flags v t hflags hrun
  unfold BlocksRuntime.blockObjectAssignBody at hrun
  by_cases h₁ : flags &&& BLOCK_ALL_COPY_DISPOSE_FLAGS = BLOCK_FIELD_IS_OBJECT
  · rw [if_pos h₁] at hrun
    exact EndsWith.bind (fun _ => hsome object) _ _ _ hrun
  rw [if_neg h₁] at hrun
  by_cases h₂ : flags &&& BLOCK_ALL_COPY_DISPOSE_FLAGS = BLOCK_FIELD_IS_BLOCK
  · rw [if_pos h₂] at hrun
    exact EndsWith.bind hsome _ _ _ hrun
  rw [if_neg h₂] at hrun
  split at hrun
  · exact EndsWith.bind hsome _ _ _ hrun
  split at hrun
  · exact hsome object _ _ _ hrun
  split at hrun
  · exact hsome object _ _ _ hrun
  · simp only [Assigns, List.mem_cons, List.not_mem_nil, or_false] at hflags
    tauto

/-- A call whose result is stored. -/
theorem stored_run {x : RawM Addr} {y : M Addr} {v : Option Addr} (hx : Implements im U x y)
    (hsmall : ∀ b u, Represents im U u t → y s = .ok (b, t) → b < addressLimit)
    (h : Represents im U r s)
    (hrun : (do
      let copy ← y
      return some copy : M (Option Addr)) s = .ok (v, t)) (hlimit : Addressable t) :
    ∃ u, Represents im U u t ∧ (∀ w, v = some w → w < addressLimit) ∧
      ∀ dest off, (do
        let copy ← x
        store64 dest off copy : RawM Unit) r = storeResult dest off v u := by
  obtain ⟨b, s', hfirst, hlast⟩ := bind_eq_ok hrun
  obtain ⟨rfl, rfl⟩ := Prod.mk.inj (Except.ok.inj hlast)
  obtain ⟨u, hu, hend⟩ := hx _ _ _ _ h hfirst hlimit
  refine ⟨u, hend, fun w hw => ?_, fun dest off => run_bind hu⟩
  obtain rfl := Option.some.inj hw
  exact hsmall b u hend hfirst

theorem assignsLike (hcopy : ∀ a, Implements im U (rawCopy a) (blockCopy a))
    (hbyref : ∀ a, Implements im U (rawByrefCopy a) (blockByrefCopy a))
    (hcopylt : ∀ s a b t, Placed s → blockCopy a s = .ok (b, t) → b < t.next)
    (hbyrefends : ∀ a, EndsWith (fun b t => ∃ c, t.byrefs a = some c ∧ c.byref.forwarding = b)
      (blockByrefCopy a)) :
    AssignsLike im U
      (blockObjectAssignBody (fun o => log (.retainObject o)) rawCopy rawByrefCopy)
      (BlocksRuntime.blockObjectAssignBody (fun o => BlocksRuntime.log (.retainObject o))
        blockCopy blockByrefCopy) := by
  intro r s object flags v t h hobject hrun hlimit
  -- the value is the object itself
  have hobjectRun : (pure (some object) : M (Option Addr)) s = .ok (v, t) →
      ∃ u, Represents im U u t ∧ (∀ w, v = some w → w < addressLimit) ∧
        ∀ dest off, store64 dest off object r = storeResult dest off v u := by
    intro hpure
    obtain ⟨rfl, rfl⟩ := Prod.mk.inj (Except.ok.inj hpure)
    exact ⟨r, h, fun w hw => Option.some.inj hw ▸ hobject, fun _ _ => rfl⟩
  unfold BlocksRuntime.blockObjectAssignBody at hrun
  unfold blockObjectAssignBody
  by_cases h₁ : flags &&& BLOCK_ALL_COPY_DISPOSE_FLAGS = BLOCK_FIELD_IS_OBJECT
  · rw [if_pos h₁] at hrun
    rw [bind_ok (log_apply _ _)] at hrun
    obtain ⟨rfl, rfl⟩ := Prod.mk.inj (Except.ok.inj hrun)
    refine ⟨_, h.log (.retainObject object), fun w hw => Option.some.inj hw ▸ hobject,
      fun dest off => ?_⟩
    rw [if_pos h₁, run_bind (run_log _ r)]
    rfl
  rw [if_neg h₁] at hrun
  simp only [if_neg h₁]
  by_cases h₂ : flags &&& BLOCK_ALL_COPY_DISPOSE_FLAGS = BLOCK_FIELD_IS_BLOCK
  · rw [if_pos h₂] at hrun
    simp only [if_pos h₂]
    exact stored_run (hcopy object) (fun b _ _ hfirst =>
      Nat.lt_of_lt_of_le (hcopylt _ _ _ _ h.placed hfirst) hlimit) h hrun hlimit
  rw [if_neg h₂] at hrun
  simp only [if_neg h₂]
  split at hrun
  · next h₃ =>
    simp only [if_pos h₃]
    exact stored_run (hbyref object) (fun b _ hend hfirst =>
      hend.forwarding_lt (hbyrefends _ _ _ _ hfirst)) h hrun hlimit
  · next h₃ =>
    simp only [if_neg h₃]
    split at hrun
    · next h₄ =>
      simp only [if_pos h₄]
      exact hobjectRun hrun
    · next h₄ =>
      simp only [if_neg h₄]
      split at hrun
      · next h₅ =>
        simp only [if_pos h₅]
        exact hobjectRun hrun
      · next h₅ =>
        simp only [if_neg h₅]
        obtain ⟨rfl, rfl⟩ := Prod.mk.inj (Except.ok.inj hrun)
        exact ⟨r, h, fun w hw => absurd hw.symm (Option.some_ne_none w), fun _ _ => rfl⟩

end

/-! ## The recursion -/

theorem returnsValue_blockObjectAssignN (env : Env) (n : Nat) :
    ReturnsValue (BlocksRuntime.blockObjectAssignN env n) := by
  cases n with
  | zero =>
    intro s object flags v t _ hrun
    cases hrun
  | succ n => exact returnsValue _ _

/-- `_Block_object_assign`, to any depth. -/
theorem assignsLike_blockObjectAssignN (im : Image) (env : RawEnv) (junk : Nat → Word) (n : Nat)
    (U : Set Addr) : AssignsLike im U (blockObjectAssignN im env n)
      (BlocksRuntime.blockObjectAssignN (env.toEnv junk) n) := by
  induction n generalizing U with
  | zero =>
    intro r s object flags v t _ _ hrun
    cases hrun
  | succ n ih =>
    have hkeeps := keeps_blockObjectAssignN (env.toEnv junk) n
    have hcopykeeps := keeps_blockCopyN (env.toEnv junk) n
    have hcopy : ∀ U a, Implements im U (blockCopyN im env n a)
        (BlocksRuntime.blockCopyN (env.toEnv junk) n a) := fun U a =>
      implements_blockCopyBody (fun V => copiesLike (ih V) hkeeps) (keeps_copyHelper hkeeps) U a
    have hsmall : ∀ s a b t, Placed s →
        BlocksRuntime.blockCopyN (env.toEnv junk) n a s = .ok (b, t) → b < t.next :=
      fun _ _ _ _ => blockCopyBody_lt (keeps_copyHelper hkeeps)
    have hkeep := keepsLike ih (returnsValue_blockObjectAssignN _ n) hkeeps hcopy hsmall hcopykeeps
    have hbyref : ∀ a, Implements im U (blockByrefCopyN im env n a)
        (BlocksRuntime.blockByrefCopyN (env.toEnv junk) n a) :=
      implements_blockByrefCopyBody hkeep (keeps_byrefKeepHelper hkeeps hcopykeeps) U
    exact assignsLike (hcopy U) hbyref hsmall blockByrefCopyBody_ends

/-- `_Block_copy`, to any depth. -/
theorem implements_blockCopyN (im : Image) (env : RawEnv) (junk : Nat → Word) (n : Nat)
    (U : Set Addr) (a : Addr) :
    Implements im U (blockCopyN im env n a)
      (BlocksRuntime.blockCopyN (env.toEnv junk) n a) :=
  implements_blockCopyBody
    (fun V => copiesLike (assignsLike_blockObjectAssignN im env junk n V)
      (keeps_blockObjectAssignN _ n))
    (keeps_copyHelper (keeps_blockObjectAssignN _ n)) U a

end

/-! ## Entry points -/

section

variable {im : Image} {env : RawEnv} {junk : Nat → Word} {U : Set Addr} {r : RawMem} {s t : Mem}

theorem blockCopy_run {b c : Addr} (h : Represents im U r s)
    (hrun : BlocksRuntime.blockCopy (env.toEnv junk) b s = .ok (c, t)) (hlimit : Addressable t) :
    ∃ u, blockCopy im env b r = .ok (c, u) ∧ Represents im U u t := by
  unfold blockCopy copyFuel
  rw [h.next]
  exact implements_blockCopyN im env junk _ U b r s c t h hrun hlimit

theorem blockObjectAssign_run {object : Addr} {flags : Flags} {v : Option Addr}
    (h : Represents im U r s) (hobject : object < addressLimit)
    (hrun : BlocksRuntime.blockObjectAssign (env.toEnv junk) object flags s = .ok (v, t))
    (hlimit : Addressable t) :
    ∃ u, Represents im U u t ∧ ∀ dest off,
      blockObjectAssign im env dest off object flags r = storeResult dest off v u := by
  unfold blockObjectAssign copyFuel
  rw [h.next]
  obtain ⟨u, hu, _, hraw⟩ :=
    assignsLike_blockObjectAssignN im env junk _ U r s object flags v t h hobject hrun hlimit
  exact ⟨u, hu, hraw⟩

theorem blockTryRetain_run {b : Addr} {retained : Bool} (h : Represents im U r s)
    (hrun : BlocksRuntime.blockTryRetain b s = .ok (retained, t)) :
    ∃ u, blockTryRetain b r = .ok (retained, u) ∧ Represents im U u t :=
  h.loopBlock high_tryIncr_run hrun

theorem blockRelease_run {b : Addr} (h : Represents im ∅ r s)
    (hrun : BlocksRuntime.blockRelease b s = .ok ((), t)) :
    ∃ u, blockRelease im b r = .ok ((), u) ∧ Represents im ∅ u t := by
  unfold blockRelease releaseFuel
  rw [h.next]
  exact releases_blockReleaseN im _ b r s () t h hrun trivial

theorem blockObjectDispose_run {object : Addr} {flags : Flags} (h : Represents im ∅ r s)
    (hrun : BlocksRuntime.blockObjectDispose object flags s = .ok ((), t)) :
    ∃ u, blockObjectDispose im object flags r = .ok ((), u) ∧ Represents im ∅ u t := by
  unfold blockObjectDispose releaseFuel
  rw [h.next]
  exact releases_blockObjectDisposeN im _ object flags r s () t h hrun trivial

/-- Whatever the memory, if a call returns on records then it returns on the
bytes that represent them, with the same result, and the bytes represent the
records afterwards. -/
theorem runtime_refines (env : RawEnv) (junk : Nat → Word) (h : Represents im ∅ r s) :
    (∀ a b t, BlocksRuntime.blockCopy (env.toEnv junk) a s = .ok (b, t) → Addressable t →
      ∃ u, blockCopy im env a r = .ok (b, u) ∧ Represents im ∅ u t) ∧
    (∀ object flags v t, object < addressLimit →
      BlocksRuntime.blockObjectAssign (env.toEnv junk) object flags s = .ok (v, t) → Addressable t →
      ∃ u, Represents im ∅ u t ∧ ∀ dest off,
        blockObjectAssign im env dest off object flags r = storeResult dest off v u) ∧
    (∀ a t, BlocksRuntime.blockRelease a s = .ok ((), t) →
      ∃ u, blockRelease im a r = .ok ((), u) ∧ Represents im ∅ u t) ∧
    ∀ object flags t, BlocksRuntime.blockObjectDispose object flags s = .ok ((), t) →
      ∃ u, blockObjectDispose im object flags r = .ok ((), u) ∧ Represents im ∅ u t :=
  ⟨fun _ _ _ => blockCopy_run h, fun _ _ _ _ => blockObjectAssign_run h,
    fun _ _ => blockRelease_run h, fun _ _ _ => blockObjectDispose_run h⟩

end

/-- An allocator that leaves a pattern in fresh memory. -/
def roomy : RawEnv where
  mallocOk _ := true
  junk _ _ := 0xaa

theorem runtime_refines_nested : ∃ u t,
    BlocksRuntime.blockCopy (roomy.toEnv fun _ => 0) 3 nested = .ok (4, t) ∧
      blockCopy sampleImage roomy 3 nestedBytes = .ok (4, u) ∧ Represents sampleImage ∅ u t := by
  obtain ⟨hcopy, _⟩ := runtime_refines roomy (fun _ => 0) nestedBytes_represent
  obtain ⟨t, hrun, hlimit⟩ : ∃ t,
      BlocksRuntime.blockCopy (roomy.toEnv fun _ => 0) 3 nested = .ok (4, t) ∧ t.next = 7 :=
    ⟨_, rfl, rfl⟩
  have hroom : t.next ≤ addressLimit := hlimit ▸ (by decide)
  obtain ⟨u, hu, hend⟩ := hcopy 3 4 t hrun hroom
  exact ⟨u, t, hrun, hu, hend⟩

end BlocksRuntime.Raw
