import BlocksRuntime.MetadataFrame

/-!
# What helpers can rely on

A helper reads its fields one after the other, and the calls it makes in
between change the memory.

* `SameCode` is what no call changes in a block: what calls it, and `reserved`.
* `Kept` is the frame of copying.  A block or a `__block` record keeps its
  words, except the one that a helper is filling.
* `Dropped` is the frame of releasing.  A block that is still there was there
  all the time, with the same words.
-/

namespace BlocksRuntime.Raw

open RetryLoop StateFrame

theorem wordAt_inv {words : List Word} {i : Nat} {w : Word} {s t : Mem}
    (h : wordAt words i s = .ok (w, t)) : t = s ∧ words[i]? = some w := by
  cases hx : words[i]? with
  | none =>
    simp only [wordAt, hx] at h
    cases h
  | some x =>
    rw [wordAt_ok hx] at h
    obtain ⟨rfl, rfl⟩ := Prod.mk.inj (Except.ok.inj h)
    exact ⟨rfl, rfl⟩

theorem freeBlock_inv {a : Addr} {s t : Mem} (h : freeBlock a s = .ok ((), t)) :
    ∃ c, s.blocks a = some c ∧ t = (s.eraseBlock a).log (.freeBlock a) := by
  unfold freeBlock at h
  split at h
  · next c hc => exact ⟨c, hc, (Prod.mk.inj (Except.ok.inj h)).2.symm⟩
  · cases h

theorem freeByref_inv {a : Addr} {s t : Mem} (h : freeByref a s = .ok ((), t)) :
    ∃ c, s.byrefs a = some c ∧ t = (s.eraseByref a).log (.freeByref a) := by
  unfold freeByref at h
  split at h
  · next c hc => exact ⟨c, hc, (Prod.mk.inj (Except.ok.inj h)).2.symm⟩
  · cases h

/-- Two blocks with the same code. -/
structure SameCode (c d : BlockCell) : Prop where
  reserved : d.layout.reserved = c.layout.reserved
  invoke : d.layout.invoke = c.layout.invoke

theorem SameCode.refl (c : BlockCell) : SameCode c c := ⟨rfl, rfl⟩

theorem SameCode.trans {c d e : BlockCell} (h : SameCode c d) (h' : SameCode d e) :
    SameCode c e :=
  ⟨h'.reserved.trans h.reserved, h'.invoke.trans h.invoke⟩

/-! ## Copying -/

/-- Every record is at an address that was handed out. -/
structure Bounded (s : Mem) : Prop where
  block_lt : ∀ a c, s.blocks a = some c → a < s.next
  byref_lt : ∀ a c, s.byrefs a = some c → a < s.next

/-- Two `__block` records with the same words. -/
structure SameWords (c d : ByrefCell) : Prop where
  byref2 : d.byref.byref2 = c.byref.byref2
  storage : d.byref.storage = c.byref.storage
  hasCopyDispose : d.byref.flags &&& BLOCK_BYREF_HAS_COPY_DISPOSE =
    c.byref.flags &&& BLOCK_BYREF_HAS_COPY_DISPOSE

theorem SameWords.refl (c : ByrefCell) : SameWords c c := ⟨rfl, rfl, rfl⟩

theorem SameWords.trans {c d e : ByrefCell} (h : SameWords c d) (h' : SameWords d e) :
    SameWords c e :=
  ⟨h'.byref2.trans h.byref2, h'.storage.trans h.storage,
    h'.hasCopyDispose.trans h.hasCopyDispose⟩

/-- All records but the one at `x` keep their words. -/
structure Kept (x : Option Addr) (s t : Mem) : Prop where
  next : s.next ≤ t.next
  code : ∀ a c, s.blocks a = some c → ∃ d, t.blocks a = some d ∧ SameCode c d
  block : ∀ a c, s.blocks a = some c → some a ≠ x →
    ∃ d, t.blocks a = some d ∧ d.layout.captured = c.layout.captured
  byref : ∀ a c, s.byrefs a = some c → some a ≠ x →
    ∃ d, t.byrefs a = some d ∧ SameWords c d

section Kept

variable {x : Option Addr} {s t u : Mem} {a : Addr} {β γ : Type} {env : Env}

theorem Kept.refl (x : Option Addr) (s : Mem) : Kept x s s where
  next := Nat.le_refl _
  code _ c hc := ⟨c, hc, SameCode.refl c⟩
  block _ c hc _ := ⟨c, hc, rfl⟩
  byref _ c hc _ := ⟨c, hc, SameWords.refl c⟩

theorem Kept.code_trans {y z : Option Addr} (h : Kept y s t) (h' : Kept z t u) (a : Addr)
    (c : BlockCell) (hc : s.blocks a = some c) : ∃ d, u.blocks a = some d ∧ SameCode c d := by
  obtain ⟨d, hd, hcd⟩ := h.code a c hc
  obtain ⟨e, he, hde⟩ := h'.code a d hd
  exact ⟨e, he, hcd.trans hde⟩

theorem Kept.trans (h : Kept x s t) (h' : Kept x t u) : Kept x s u where
  next := h.next.trans h'.next
  code := h.code_trans h'
  block a c hc hx := by
    obtain ⟨d, hd, hcd⟩ := h.block a c hc hx
    obtain ⟨e, he, hde⟩ := h'.block a d hd hx
    exact ⟨e, he, hde.trans hcd⟩
  byref a c hc hx := by
    obtain ⟨d, hd, hcd⟩ := h.byref a c hc hx
    obtain ⟨e, he, hde⟩ := h'.byref a d hd hx
    exact ⟨e, he, hcd.trans hde⟩

theorem kept_isFrame (x : Option Addr) : IsFrame Bounded (Kept x) where
  refl s _ := Kept.refl x s
  trans _ _ _ _ h h' := h.trans h'

/-- A record that was not there before may be filled. -/
theorem Kept.filled (hs : Bounded s) (h : Kept none s t) (h' : Kept (some s.next) t u) :
    Kept none s u where
  next := h.next.trans h'.next
  code := h.code_trans h'
  block a c hc _ := by
    have hne : some a ≠ some s.next := fun he => (hs.block_lt a c hc).ne (Option.some.inj he)
    obtain ⟨d, hd, hcd⟩ := h.block a c hc (Option.some_ne_none a)
    obtain ⟨e, he, hde⟩ := h'.block a d hd hne
    exact ⟨e, he, hde.trans hcd⟩
  byref a c hc _ := by
    have hne : some a ≠ some s.next := fun he => (hs.byref_lt a c hc).ne (Option.some.inj he)
    obtain ⟨d, hd, hcd⟩ := h.byref a c hc (Option.some_ne_none a)
    obtain ⟨e, he, hde⟩ := h'.byref a d hd hne
    exact ⟨e, he, hcd.trans hde⟩

theorem Kept.weaken (h : Kept none s t) : Kept x s t where
  next := h.next
  code := h.code
  block a c hc _ := h.block a c hc (Option.some_ne_none a)
  byref a c hc _ := h.byref a c hc (Option.some_ne_none a)

/-- The operation keeps the words of all records but the one at `x`. -/
abbrev Keeps (x : Option Addr) (y : M β) : Prop := Stays Bounded (Kept x) y

theorem Keeps.weaken {y : M β} (h : Keeps none y) : Keeps x y := fun s b t hs hrun =>
  ⟨(h s b t hs hrun).1, (h s b t hs hrun).2.weaken⟩

/-! ### Single stores -/

theorem Bounded.setBlock (hs : Bounded s) (ha : a < s.next) (c : BlockCell) :
    Bounded (s.setBlock a c) where
  block_lt b d hd := by
    by_cases hba : b = a
    · exact hba ▸ ha
    · rw [Mem.setBlock_blocks_ne s c hba] at hd
      exact hs.block_lt b d hd
  byref_lt := hs.byref_lt

theorem Bounded.setByref (hs : Bounded s) (ha : a < s.next) (c : ByrefCell) :
    Bounded (s.setByref a c) where
  block_lt := hs.block_lt
  byref_lt b d hd := by
    by_cases hba : b = a
    · exact hba ▸ ha
    · rw [Mem.setByref_byrefs_ne s c hba] at hd
      exact hs.byref_lt b d hd

theorem kept_setBlock {c d : BlockCell} (hc : s.blocks a = some c) (hcode : SameCode c d)
    (hd : some a ≠ x → d.layout.captured = c.layout.captured) : Kept x s (s.setBlock a d) where
  next := Nat.le_refl _
  code b e he := by
    rcases Mem.setBlock_cases d hc he with ⟨rfl, rfl, hself⟩ | ⟨_, hother⟩
    · exact ⟨d, hself, hcode⟩
    · exact ⟨e, hother, SameCode.refl e⟩
  block b e he hx := by
    rcases Mem.setBlock_cases d hc he with ⟨rfl, rfl, hself⟩ | ⟨_, hother⟩
    · exact ⟨d, hself, hd hx⟩
    · exact ⟨e, hother, rfl⟩
  byref _ e he _ := ⟨e, he, SameWords.refl e⟩

theorem kept_setByref {c d : ByrefCell} (hc : s.byrefs a = some c)
    (hd : some a ≠ x → SameWords c d) : Kept x s (s.setByref a d) where
  next := Nat.le_refl _
  code _ e he := ⟨e, he, SameCode.refl e⟩
  block _ e he _ := ⟨e, he, rfl⟩
  byref b e he hx := by
    rcases Mem.setByref_cases d hc he with ⟨rfl, rfl, hself⟩ | ⟨_, hother⟩
    · exact ⟨d, hself, hd hx⟩
    · exact ⟨e, hother, SameWords.refl e⟩

theorem keeps_bind {y : M β} {f : β → M γ} (hy : Keeps x y) (hf : ∀ b, Keeps x (f b)) :
    Keeps x (y >>= f) :=
  Stays.bind (kept_isFrame x) hy hf

theorem keeps_pure (b : β) : Keeps x (pure b : M β) := Stays.pure (kept_isFrame x) b

theorem keeps_fault (e : Fault) : Keeps x (fault e : M β) := Stays.of_error fun _ => ⟨e, rfl⟩

theorem keeps_log (e : Event) : Keeps x (log e) := by
  intro s b t hs hrun
  obtain ⟨_, rfl⟩ := Prod.mk.inj (Except.ok.inj hrun)
  exact ⟨⟨hs.block_lt, hs.byref_lt⟩, Nat.le_refl _, fun _ c hc => ⟨c, hc, SameCode.refl c⟩,
    fun _ c hc _ => ⟨c, hc, rfl⟩, fun _ c hc _ => ⟨c, hc, SameWords.refl c⟩⟩

theorem keeps_wordAt (words : List Word) (i : Nat) : Keeps x (wordAt words i) := by
  unfold wordAt
  split
  · exact keeps_pure _
  · exact keeps_fault _

theorem keeps_loadBlock (a : Addr) : Keeps x (loadBlock a) := by
  intro s b t hs hrun
  obtain ⟨rfl, _⟩ := loadBlock_inv hrun
  exact ⟨hs, Kept.refl x t⟩

theorem keeps_loadByref (a : Addr) : Keeps x (loadByref a) := by
  intro s b t hs hrun
  obtain ⟨rfl, _⟩ := loadByref_inv hrun
  exact ⟨hs, Kept.refl x t⟩

theorem keeps_updateBlock {a : Addr} {f : BlockLayout → BlockLayout}
    (hcode : ∀ b, (f b).reserved = b.reserved ∧ (f b).invoke = b.invoke)
    (hf : some a ≠ x → ∀ b, (f b).captured = b.captured) : Keeps x (updateBlock a f) := by
  intro s b t hs hrun
  obtain ⟨c, hc, rfl⟩ := updateBlock_inv hrun
  obtain ⟨hreserved, hinvoke⟩ := hcode c.layout
  exact ⟨hs.setBlock (hs.block_lt a c hc) _,
    kept_setBlock hc ⟨hreserved, hinvoke⟩ fun hx => hf hx _⟩

theorem keeps_updateByref {a : Addr} {f : BlockByref → BlockByref}
    (hf : some a ≠ x → ∀ b, (f b).byref2 = b.byref2 ∧ (f b).storage = b.storage ∧
      (f b).flags = b.flags) : Keeps x (updateByref a f) := by
  intro s b t hs hrun
  obtain ⟨c, hc, rfl⟩ := updateByref_inv hrun
  refine ⟨hs.setByref (hs.byref_lt a c hc) _, kept_setByref hc fun hx => ?_⟩
  obtain ⟨hbyref2, hstorage, hflags⟩ := hf hx c.byref
  exact ⟨hbyref2, hstorage, congrArg (· &&& BLOCK_BYREF_HAS_COPY_DISPOSE) hflags⟩

theorem keeps_incrBlock (a : Addr) : Keeps x (loopBlockFlags a latchingIncrInt) := by
  intro s b t hs hrun
  obtain ⟨c, w, hc, _, rfl⟩ := loopBlockFlags_inv hrun
  exact ⟨hs.setBlock (hs.block_lt a c hc) _, kept_setBlock hc ⟨rfl, rfl⟩ fun _ => rfl⟩

theorem keeps_incrByref (a : Addr) : Keeps x (loopByrefFlags a latchingIncrInt) := by
  intro s b t hs hrun
  obtain ⟨c, w, hc, hw, rfl⟩ := loopByrefFlags_inv hrun
  refine ⟨hs.setByref (hs.byref_lt a c hc) _, kept_setByref hc fun _ => ⟨rfl, rfl, ?_⟩⟩
  have hhigh := high_incr_run c.byref.flags
  rw [hw] at hhigh
  exact and_eq_of_high_eq hhigh _ (by decide)

/-! ### The functions that copy -/

section

variable {copyHelper byrefKeep : Addr → Addr → M Unit} {blockCopy : Addr → M Addr}
  {assign : Addr → Flags → M (Option Addr)}

theorem Bounded.bump (hs : Bounded s) (mallocs : Nat) (trace : List Event) :
    Bounded { s with next := s.next + 1, mallocs := mallocs, trace := trace } where
  block_lt a c hc := Nat.lt_succ_of_lt (hs.block_lt a c hc)
  byref_lt a c hc := Nat.lt_succ_of_lt (hs.byref_lt a c hc)

/-- A new block at the next address. -/
theorem kept_halfCopy (hs : Bounded s) (a : Addr) (c : BlockCell) :
    Bounded (s.halfCopy a c) ∧ Kept none s (s.halfCopy a c) := by
  have hold : ∀ b d, s.blocks b = some d → (s.halfCopy a c).blocks b = some d := by
    intro b d hd
    rw [Mem.halfCopy, Mem.setBlock_blocks_ne _ _ (hs.block_lt b d hd).ne]
    exact hd
  exact ⟨(hs.bump _ _).setBlock (Nat.lt_succ_self _) _, Nat.le_succ _,
    fun b d hd => ⟨d, hold b d hd, SameCode.refl d⟩, fun b d hd _ => ⟨d, hold b d hd, rfl⟩,
    fun b d hd _ => ⟨d, hd, SameWords.refl d⟩⟩

/-- A new record at the next address. -/
theorem kept_blankCopy (env : Env) (hs : Bounded s) (v : Addr) (c : ByrefCell) :
    Bounded (s.blankCopy env v c) ∧ Kept none s (s.blankCopy env v c) := by
  refine ⟨(hs.bump _ _).setByref (Nat.lt_succ_self _) _, Nat.le_succ _,
    fun b d hd => ⟨d, hd, SameCode.refl d⟩, fun b d hd _ => ⟨d, hd, rfl⟩, fun b d hd _ => ?_⟩
  refine ⟨d, ?_, SameWords.refl d⟩
  rw [Mem.blankCopy, Mem.setByref_byrefs_ne _ _ (hs.byref_lt b d hd).ne]
  exact hd

/-- `_Block_copy` on a stack block, when there is memory for the copy. -/
theorem blockCopyBody_made {c : BlockCell} {b : Addr} (hc : s.blocks a = some c) (hnull : a ≠ NULL)
    (hfree : ¬(c.layout.flags &&& BLOCK_NEEDS_FREE ≠ 0))
    (hglobal : ¬(c.layout.flags &&& BLOCK_IS_GLOBAL ≠ 0)) (hm : env.mallocOk s.mallocs = true)
    (hrun : blockCopyBody env copyHelper a s = .ok (b, t)) :
    b = s.next ∧ ∃ u e, blockCallCopyHelper copyHelper s.next a (s.halfCopy a c) = .ok ((), u) ∧
      u.blocks s.next = some e ∧
      t = u.setBlock s.next { e with layout := { e.layout with isa := .mallocBlock } } := by
  rw [blockCopyBody, if_neg hnull, bind_ok (loadBlock_ok hc), if_neg hfree, if_neg hglobal,
    bind_ok (malloc_ok hm)] at hrun
  simp only at hrun
  rw [bind_ok (log_apply _ _), bind_ok (storeBlock_apply _ _ _)] at hrun
  obtain ⟨_, u, hcall, hrun⟩ := bind_eq_ok hrun
  obtain ⟨_, t', hisa, hrun⟩ := bind_eq_ok hrun
  obtain ⟨e, he, rfl⟩ := updateBlock_inv hisa
  obtain ⟨rfl, rfl⟩ := Prod.mk.inj (Except.ok.inj hrun)
  exact ⟨rfl, u, e, hcall, he, rfl⟩

theorem keeps_blockCallCopyHelper {result aBlock : Addr}
    (hhelper : Keeps x (copyHelper result aBlock)) :
    Keeps x (blockCallCopyHelper copyHelper result aBlock) := by
  refine keeps_bind (keeps_loadBlock aBlock) fun b => ?_
  cases blockDescriptor2 b with
  | none => exact keeps_pure ()
  | some desc =>
    exact keeps_bind (keeps_wordAt _ _) fun _ => keeps_bind (keeps_log _) fun _ => hhelper

theorem keeps_blockCopyBody (hhelper : ∀ dst src, Keeps (some dst) (copyHelper dst src))
    (a : Addr) : Keeps none (blockCopyBody env copyHelper a) := by
  refine Stays.ite (keeps_pure _) fun s r u hs hrun => ?_
  obtain ⟨b, s', hload, hrun⟩ := bind_eq_ok hrun
  obtain ⟨rfl, c, hc, rfl⟩ := loadBlock_inv hload
  split at hrun
  · exact keeps_bind (keeps_incrBlock a) (fun _ => keeps_pure a) s' r u hs hrun
  split at hrun
  · exact keeps_pure a s' r u hs hrun
  cases hm : env.mallocOk s'.mallocs with
  | false =>
    rw [bind_ok (malloc_none hm)] at hrun
    obtain ⟨_, rfl⟩ := Prod.mk.inj (Except.ok.inj hrun)
    exact ⟨⟨hs.block_lt, hs.byref_lt⟩, Nat.le_refl _, fun _ d hd => ⟨d, hd, SameCode.refl d⟩,
      fun _ d hd _ => ⟨d, hd, rfl⟩, fun _ d hd _ => ⟨d, hd, SameWords.refl d⟩⟩
  | true =>
    rw [bind_ok (malloc_ok hm)] at hrun
    simp only at hrun
    rw [bind_ok (log_apply _ _), bind_ok (storeBlock_apply _ _ _)] at hrun
    obtain ⟨hhalf, hnew⟩ := kept_halfCopy hs a c
    have hrest := keeps_bind (keeps_blockCallCopyHelper (hhelper s'.next a)) fun _ =>
      keeps_bind (keeps_updateBlock (a := s'.next) (x := some s'.next)
        (f := fun b => { b with isa := .mallocBlock }) (fun _ => ⟨rfl, rfl⟩) fun _ _ => rfl)
        fun _ => keeps_pure s'.next
    obtain ⟨hu, hlast⟩ := hrest _ r u hhalf hrun
    exact ⟨hu, hnew.filled hs hlast⟩

/-- The copy of a stack block has the code of the block. -/
theorem blockCopyBody_code (hhelper : ∀ dst src, Keeps (some dst) (copyHelper dst src))
    (hs : Bounded s) {c : BlockCell} {b : Addr} (hc : s.blocks a = some c) (hnull : a ≠ NULL)
    (hfree : ¬(c.layout.flags &&& BLOCK_NEEDS_FREE ≠ 0))
    (hglobal : ¬(c.layout.flags &&& BLOCK_IS_GLOBAL ≠ 0)) (hm : env.mallocOk s.mallocs = true)
    (hrun : blockCopyBody env copyHelper a s = .ok (b, t)) :
    ∃ d, t.blocks s.next = some d ∧ SameCode c d := by
  obtain ⟨_, u, e, hcall, he, rfl⟩ := blockCopyBody_made hc hnull hfree hglobal hm hrun
  obtain ⟨hhalf, _⟩ := kept_halfCopy hs a c
  obtain ⟨_, hkept⟩ := keeps_blockCallCopyHelper (hhelper s.next a) _ _ _ hhalf hcall
  obtain ⟨e', he', hcode⟩ := hkept.code s.next (halfCopied c) (Mem.setBlock_blocks_self ..)
  obtain rfl : e = e' := Option.some.inj (he.symm.trans he')
  exact ⟨_, Mem.setBlock_blocks_self .., hcode.reserved, hcode.invoke⟩

/-- The end of `_Block_byref_copy`, which fills the new record. -/
theorem keeps_finishByrefCopy (hkeep : ∀ dst src, Keeps (some dst) (byrefKeep dst src))
    (src : BlockByref) (copy a : Addr) :
    Keeps (some copy) (do
      if src.flags &&& BLOCK_BYREF_HAS_COPY_DISPOSE ≠ 0 then
        updateByref copy fun b => { b with byref2 := src.byref2 }
        if src.flags &&& BLOCK_BYREF_LAYOUT_EXTENDED ≠ 0 then
          let layout ← wordAt src.storage 0
          updateByref copy fun b => { b with storage := b.storage.set 0 layout }
        log (.byrefKeep copy)
        byrefKeep copy a
      else
        updateByref copy fun b => { b with byref2 := src.byref2, storage := src.storage }
      let src ← loadByref a
      return src.forwarding : M Addr) := by
  have hreturn : Keeps (some copy) (do
      let src ← loadByref a
      return src.forwarding : M Addr) := keeps_bind (keeps_loadByref a) fun _ => keeps_pure _
  have hfill : ∀ f, Keeps (some copy) (updateByref copy f) := fun f =>
    keeps_updateByref fun hx => absurd rfl hx
  have hcall : Keeps (some copy) (do
      log (.byrefKeep copy)
      byrefKeep copy a
      let src ← loadByref a
      return src.forwarding : M Addr) :=
    keeps_bind (keeps_log _) fun _ => keeps_bind (hkeep copy a) fun _ => hreturn
  refine Stays.ite ?_ (keeps_bind (hfill _) fun _ => hreturn)
  refine keeps_bind (hfill _) fun _ => Stays.ite ?_ hcall
  exact keeps_bind (keeps_wordAt _ _) fun _ => keeps_bind (hfill _) fun _ => hcall

theorem keeps_blockByrefCopyBody (hkeep : ∀ dst src, Keeps (some dst) (byrefKeep dst src))
    (a : Addr) : Keeps none (blockByrefCopyBody env byrefKeep a) := by
  intro s r u hs hrun
  obtain ⟨b, s', hload, hrun⟩ := bind_eq_ok hrun
  obtain ⟨rfl, c, hc, rfl⟩ := loadByref_inv hload
  obtain ⟨b, s, hload, hrun⟩ := bind_eq_ok hrun
  obtain ⟨rfl, d, hd, rfl⟩ := loadByref_inv hload
  have hreturn : Keeps none (do
      let src ← loadByref a
      return src.forwarding : M Addr) := keeps_bind (keeps_loadByref a) fun _ => keeps_pure _
  split at hrun
  · cases hm : env.mallocOk s.mallocs with
    | false =>
      rw [bind_ok (malloc_none hm)] at hrun
      cases hrun
    | true =>
      rw [bind_ok (malloc_ok hm)] at hrun
      simp only at hrun
      rw [bind_ok (log_apply _ _), bind_ok (storeByref_apply _ _ _)] at hrun
      obtain ⟨_, t, hforward, hrun⟩ := bind_eq_ok hrun
      obtain ⟨hblank, hnew⟩ := kept_blankCopy env hs a c
      obtain ⟨ht, hmid⟩ := keeps_updateByref (x := none)
        (f := fun b => { b with forwarding := s.next }) (fun _ _ => ⟨rfl, rfl, rfl⟩) _ _ _
        hblank hforward
      obtain ⟨hu, hlast⟩ := keeps_finishByrefCopy hkeep c.byref s.next a t r u ht hrun
      exact ⟨hu, (hnew.trans hmid).filled hs hlast⟩
  · exact Stays.ite (keeps_bind (keeps_incrByref _) fun _ => hreturn) hreturn s r u hs hrun

theorem keeps_blockObjectAssignBody {retainObject : Addr → M Unit}
    {blockCopy blockByrefCopy : Addr → M Addr} (hretain : ∀ o, Keeps x (retainObject o))
    (hblock : ∀ a, Keeps x (blockCopy a)) (hbyref : ∀ a, Keeps x (blockByrefCopy a))
    (object : Addr) (flags : Flags) :
    Keeps x (blockObjectAssignBody retainObject blockCopy blockByrefCopy object flags) := by
  refine Stays.ite ?_ (Stays.ite ?_ (Stays.ite ?_ (Stays.ite ?_ (Stays.ite ?_ ?_))))
  · exact keeps_bind (hretain object) fun _ => keeps_pure _
  · exact keeps_bind (hblock object) fun _ => keeps_pure _
  · exact keeps_bind (hbyref object) fun _ => keeps_pure _
  · exact keeps_pure _
  · exact keeps_pure _
  · exact keeps_pure _

theorem keeps_copyFields (hassign : ∀ object flags, Keeps none (assign object flags))
    (dst i : Nat) (xs : List Capture) : Keeps (some dst) (copyFields assign dst i xs) := by
  induction xs generalizing i with
  | nil => exact keeps_pure ()
  | cons x xs ih =>
    have hstore : ∀ value, Keeps (some dst) (storeCapture dst i value) := fun value =>
      keeps_updateBlock (fun _ => ⟨rfl, rfl⟩) fun hx => absurd rfl hx
    unfold copyFields
    cases x.kind.flags with
    | none => exact keeps_bind (keeps_pure ()) fun _ => ih (i + 1)
    | some flags =>
      refine keeps_bind (hassign _ _).weaken fun value => ?_
      cases value with
      | none => exact keeps_bind (keeps_pure ()) fun _ => ih (i + 1)
      | some value => exact keeps_bind (hstore value) fun _ => ih (i + 1)

theorem keeps_copyHelper (hassign : ∀ object flags, Keeps none (assign object flags))
    (dst src : Addr) : Keeps (some dst) (BlocksRuntime.copyHelper assign dst src) :=
  keeps_bind (keeps_loadBlock src) fun _ => keeps_copyFields hassign dst 0 _

theorem keeps_byrefKeepHelper (hassign : ∀ object flags, Keeps none (assign object flags))
    (hblock : ∀ a, Keeps none (blockCopy a)) (dst src : Addr) :
    Keeps (some dst) (byrefKeepHelper assign blockCopy dst src) := by
  have hstore : ∀ f, Keeps (some dst) (updateByref dst f) := fun f =>
    keeps_updateByref fun hx => absurd rfl hx
  refine keeps_bind (keeps_loadByref src) fun record => ?_
  cases record.byref2 with
  | none => exact keeps_fault _
  | some byref2 =>
    cases hkeep : byref2.byrefKeep with
    | assign field flags =>
      simp only [hkeep]
      refine keeps_bind (keeps_wordAt _ _) fun _ => keeps_bind (hassign _ _).weaken fun value => ?_
      cases value with
      | none => exact keeps_pure ()
      | some value => exact hstore _
    | copy field =>
      simp only [hkeep]
      exact keeps_bind (keeps_wordAt _ _) fun _ => keeps_bind (hblock _).weaken fun _ => hstore _

/-- `_Block_object_assign`, to any depth. -/
theorem keeps_blockObjectAssignN (env : Env) (n : Nat) (object : Addr) (flags : Flags) :
    Keeps none (blockObjectAssignN env n object flags) := by
  induction n generalizing object flags with
  | zero => exact keeps_fault _
  | succ n ih =>
    have hblock : ∀ a, Keeps none (blockCopyN env n a) :=
      keeps_blockCopyBody (keeps_copyHelper ih)
    exact keeps_blockObjectAssignBody (fun _ => keeps_log _) hblock
      (keeps_blockByrefCopyBody (keeps_byrefKeepHelper ih hblock)) object flags

theorem keeps_blockCopyN (env : Env) (n : Nat) (a : Addr) : Keeps none (blockCopyN env n a) :=
  keeps_blockCopyBody (keeps_copyHelper (keeps_blockObjectAssignN env n)) a

end

end Kept

/-! ## Releasing -/

/-- A block that is there has been there, with the same words, and so has a
`__block` record. -/
structure Dropped (s t : Mem) : Prop where
  next : t.next = s.next
  block : ∀ a d, t.blocks a = some d →
    ∃ c, s.blocks a = some c ∧ c.layout.captured = d.layout.captured ∧ SameCode c d
  byref : ∀ a, s.byrefs a = none → t.byrefs a = none

theorem dropped_isFrame : IsFrame (fun _ => True) Dropped where
  refl s _ := ⟨rfl, fun _ d hd => ⟨d, hd, rfl, SameCode.refl d⟩, fun _ hn => hn⟩
  trans s t u _ h h' := by
    refine ⟨h'.next.trans h.next, fun a e he => ?_, fun a hn => h'.byref a (h.byref a hn)⟩
    obtain ⟨d, hd, hde, hcode'⟩ := h'.block a e he
    obtain ⟨c, hc, hcd, hcode⟩ := h.block a d hd
    exact ⟨c, hc, hcd.trans hde, hcode.trans hcode'⟩

abbrev Drops {β : Type} (x : M β) : Prop := Stays (fun _ => True) Dropped x

section Dropped

variable {β γ ρ : Type} {s t : Mem}

theorem drops_bind {x : M β} {f : β → M γ} (hx : Drops x) (hf : ∀ b, Drops (f b)) :
    Drops (x >>= f) :=
  Stays.bind dropped_isFrame hx hf

theorem drops_pure (b : β) : Drops (pure b : M β) := Stays.pure dropped_isFrame b

theorem drops_fault (e : Fault) : Drops (fault e : M β) := Stays.of_error fun _ => ⟨e, rfl⟩

/-- Operations that leave the blocks alone. -/
theorem drops_of_blocks_eq {x : M β}
    (h : ∀ s b t, x s = .ok (b, t) →
      t.blocks = s.blocks ∧ t.next = s.next ∧ ∀ a, s.byrefs a = none → t.byrefs a = none) :
    Drops x := by
  intro s b t _ hrun
  obtain ⟨hblocks, hnext, hbyrefs⟩ := h s b t hrun
  exact ⟨trivial, hnext, fun a d hd => ⟨d, hblocks ▸ hd, rfl, SameCode.refl d⟩, hbyrefs⟩

theorem drops_log (e : Event) : Drops (log e) := by
  refine drops_of_blocks_eq fun s b t hrun => ?_
  obtain ⟨_, rfl⟩ := Prod.mk.inj (Except.ok.inj hrun)
  exact ⟨rfl, rfl, fun _ hn => hn⟩

theorem drops_wordAt (words : List Word) (i : Nat) : Drops (wordAt words i) := by
  unfold wordAt
  split
  · exact drops_pure _
  · exact drops_fault _

theorem drops_loadBlock (a : Addr) : Drops (loadBlock a) := by
  refine drops_of_blocks_eq fun s b t hrun => ?_
  obtain ⟨rfl, _⟩ := loadBlock_inv hrun
  exact ⟨rfl, rfl, fun _ hn => hn⟩

theorem drops_loadByref (a : Addr) : Drops (loadByref a) := by
  refine drops_of_blocks_eq fun s b t hrun => ?_
  obtain ⟨rfl, _⟩ := loadByref_inv hrun
  exact ⟨rfl, rfl, fun _ hn => hn⟩

theorem drops_loopByrefFlags (a : Addr) (loop : Flags → Attempt Flags ρ) :
    Drops (loopByrefFlags a loop) := by
  refine drops_of_blocks_eq fun s b t hrun => ?_
  obtain ⟨c, w, hc, _, rfl⟩ := loopByrefFlags_inv hrun
  refine ⟨rfl, rfl, fun b hn => ?_⟩
  have hba : b ≠ a := fun he => Option.some_ne_none c (hc.symm.trans (he ▸ hn))
  rw [Mem.setByref_byrefs_ne _ _ hba, hn]

theorem drops_freeByref (a : Addr) : Drops (freeByref a) := by
  refine drops_of_blocks_eq fun s b t hrun => ?_
  obtain ⟨c, _, rfl⟩ := freeByref_inv hrun
  refine ⟨rfl, rfl, fun b hn => ?_⟩
  by_cases hba : b = a
  · rw [hba, Mem.log_byrefs, Mem.eraseByref_byrefs_self]
  · rw [Mem.log_byrefs, Mem.eraseByref_byrefs_ne _ hba, hn]

theorem drops_loopBlockFlags (a : Addr) (loop : Flags → Attempt Flags ρ) :
    Drops (loopBlockFlags a loop) := by
  intro s r t _ hrun
  obtain ⟨c, w, hc, _, rfl⟩ := loopBlockFlags_inv hrun
  refine ⟨trivial, rfl, fun b d hd => ?_, fun _ hn => hn⟩
  by_cases hba : b = a
  · subst hba
    rw [Mem.setBlock_blocks_self, Option.some.injEq] at hd
    subst hd
    exact ⟨c, hc, rfl, rfl, rfl⟩
  · rw [Mem.setBlock_blocks_ne _ _ hba] at hd
    exact ⟨d, hd, rfl, SameCode.refl d⟩

theorem drops_freeBlock (a : Addr) : Drops (freeBlock a) := by
  intro s r t _ hrun
  obtain ⟨c, _, rfl⟩ := freeBlock_inv hrun
  refine ⟨trivial, rfl, fun b d hd => ?_, fun _ hn => hn⟩
  rw [Mem.log_blocks] at hd
  by_cases hba : b = a
  · rw [hba, Mem.eraseBlock_blocks_self] at hd
    exact absurd hd.symm (Option.some_ne_none d)
  · rw [Mem.eraseBlock_blocks_ne _ hba] at hd
    exact ⟨d, hd, rfl, SameCode.refl d⟩

/-! ### The functions that release -/

theorem drops_blockReleaseBody {disposeHelper destructInstance : Addr → M Unit}
    (hhelper : ∀ a, Drops (disposeHelper a)) (hdestruct : ∀ a, Drops (destructInstance a))
    (a : Addr) : Drops (blockReleaseBody disposeHelper destructInstance a) := by
  have hcall : Drops (blockCallDisposeHelper disposeHelper a) := by
    refine drops_bind (drops_loadBlock a) fun b => ?_
    cases blockDescriptor2 b with
    | none => exact drops_pure ()
    | some desc =>
      exact drops_bind (drops_wordAt _ _) fun _ => drops_bind (drops_log _) fun _ => hhelper a
  refine Stays.ite (drops_pure _) (drops_bind (drops_loadBlock a) fun b => ?_)
  refine Stays.ite (drops_pure _) (Stays.ite (drops_pure _) ?_)
  exact drops_bind (drops_loopBlockFlags a _) fun _ => Stays.ite
    (drops_bind hcall fun _ => drops_bind (hdestruct a) fun _ => drops_freeBlock a) (drops_pure _)

theorem drops_blockByrefReleaseBody {byrefDestroy : Addr → M Unit}
    (hdestroy : ∀ a, Drops (byrefDestroy a)) (a : Addr) :
    Drops (blockByrefReleaseBody byrefDestroy a) := by
  refine drops_bind (drops_loadByref a) fun record => drops_bind (drops_loadByref _) fun target =>
    Stays.ite ?_ (drops_pure _)
  have hdealloc : Drops (do
      let target ← loadByref record.forwarding
      if target.flags &&& BLOCK_BYREF_HAS_COPY_DISPOSE ≠ 0 then
        log (.byrefDestroy record.forwarding)
        byrefDestroy record.forwarding
      freeByref record.forwarding : M Unit) :=
    drops_bind (drops_loadByref _) fun _ => Stays.ite
      (drops_bind (drops_log _) fun _ => drops_bind (hdestroy _) fun _ => drops_freeByref _)
      (drops_freeByref _)
  have hloop : Drops (do
      if ← loopByrefFlags record.forwarding latchingDecrIntShouldDeallocate then
        let target ← loadByref record.forwarding
        if target.flags &&& BLOCK_BYREF_HAS_COPY_DISPOSE ≠ 0 then
          log (.byrefDestroy record.forwarding)
          byrefDestroy record.forwarding
        freeByref record.forwarding : M Unit) :=
    drops_bind (drops_loopByrefFlags _ _) fun _ => Stays.ite hdealloc (drops_pure _)
  exact Stays.ite (drops_bind (drops_fault _) fun _ => hloop) hloop

theorem drops_disposeFields {dispose : Addr → Flags → M Unit}
    (hdispose : ∀ object flags, Drops (dispose object flags)) (xs : List Capture) :
    Drops (disposeFields dispose xs) := by
  induction xs with
  | nil => exact drops_pure ()
  | cons x xs ih =>
    unfold disposeFields
    cases x.kind.flags with
    | none => exact drops_bind (drops_pure ()) fun _ => ih
    | some flags => exact drops_bind (hdispose _ _) fun _ => ih

theorem drops_byrefDestroyHelper {dispose : Addr → Flags → M Unit} {blockRelease : Addr → M Unit}
    (hdispose : ∀ object flags, Drops (dispose object flags))
    (hrelease : ∀ a, Drops (blockRelease a)) (a : Addr) :
    Drops (byrefDestroyHelper dispose blockRelease a) := by
  refine drops_bind (drops_loadByref a) fun record => ?_
  cases record.byref2 with
  | none => exact drops_fault _
  | some byref2 =>
    cases hdestroy : byref2.byrefDestroy with
    | dispose field flags =>
      simp only [hdestroy]
      exact drops_bind (drops_wordAt _ _) fun _ => hdispose _ _
    | release field =>
      simp only [hdestroy]
      exact drops_bind (drops_wordAt _ _) fun _ => hrelease _

/-- `_Block_object_dispose`, to any depth. -/
theorem drops_blockObjectDisposeN (n : Nat) (object : Addr) (flags : Flags) :
    Drops (blockObjectDisposeN n object flags) := by
  induction n generalizing object flags with
  | zero => exact drops_fault _
  | succ n ih =>
    have hrelease : ∀ a, Drops (blockReleaseN n a) :=
      drops_blockReleaseBody
        (fun a => drops_bind (drops_loadBlock a) fun _ => drops_disposeFields ih _)
        fun _ => drops_log _
    exact Stays.ite (drops_blockByrefReleaseBody (drops_byrefDestroyHelper ih hrelease) object)
      (Stays.ite (hrelease object) (Stays.ite (drops_log _) (drops_pure _)))

theorem drops_blockReleaseN (n : Nat) (a : Addr) : Drops (blockReleaseN n a) :=
  drops_blockReleaseBody (fun a => drops_bind (drops_loadBlock a) fun _ =>
    drops_disposeFields (drops_blockObjectDisposeN n) _) (fun _ => drops_log _) a

end Dropped

end BlocksRuntime.Raw
