import BlocksRuntime.Raw.Frames
import BlocksRuntime.Raw.Represents

/-!
# The accessors, on bytes

The optional parts of a descriptor are found by adding the sizes of the parts
before them to the descriptor pointer.

* `ReadsLike` relates a function that only reads bytes to one that only reads
  records.
* `accessors_read` reads every accessor off the parts of the descriptor, for the
  literal and for its copies.
-/

namespace BlocksRuntime.Raw

open ByteMemory StateFrame StateRefinement

section

variable {im : Image} {U : Set Addr} {r : RawMem} {s : Mem} {a : Addr} {c : BlockCell} {o : Object}

/-- The bytes give the answer that the records give, and nothing changes. -/
def ReadsLike {β : Type} (im : Image) (x : RawM β) (y : M β) : Prop :=
  ∀ U r s b t, Represents im U r s → y s = .ok (b, t) → x r = .ok (b, r)

/-! ## The parts of a descriptor -/

/-- The words that `_Block_descriptor_3` skips. -/
theorem blockDescriptor3_run (hb : BlockBytes im c.layout o) (ho : r.objects a = some o) :
    (BlocksRuntime.blockDescriptor3 c.layout = none ∧ blockDescriptor3 a r = .ok (none, r)) ∨
      ∃ k, BlocksRuntime.blockDescriptor3 c.layout = some (c.layout.descriptor.drop k) ∧
        blockDescriptor3 a r = .ok (some (o.field 8 24, 8 * k), r) := by
  rw [BlocksRuntime.blockDescriptor3, blockDescriptor3, run_bind (hb.flags_run ho)]
  by_cases hsig : c.layout.flags &&& BLOCK_HAS_SIGNATURE = 0
  · rw [if_pos hsig, if_pos hsig]
    exact Or.inl ⟨rfl, rfl⟩
  rw [if_neg hsig, if_neg hsig, run_bind (hb.descriptor_run ho), run_bind (hb.flags_run ho)]
  by_cases hcopy : c.layout.flags &&& BLOCK_HAS_COPY_DISPOSE ≠ 0
  · refine Or.inr ⟨4, ?_, ?_⟩
    · rw [if_pos hcopy, List.drop_drop]
    · rw [if_pos hcopy, run_pure]
  · refine Or.inr ⟨2, ?_, ?_⟩
    · rw [if_neg hcopy]
    · rw [if_neg hcopy, run_pure]

/-- A word of `struct Block_descriptor_3`. -/
theorem descriptor3_word (hb : BlockBytes im c.layout o) {k i : Nat} {w : Word} {t : Mem}
    (h : wordAt (c.layout.descriptor.drop k) i s = .ok (w, t)) (u : RawMem) :
    dataWord im (o.field 8 24) (8 * k + 8 * i) u = .ok (w, u) := by
  obtain ⟨_, hget⟩ := wordAt_inv h
  rw [List.getElem?_drop] at hget
  rw [← Nat.mul_add]
  exact hb.word_run hget u

/-! ## The accessors -/

theorem reads_blockSize (im : Image) (a : Addr) :
    ReadsLike im (blockSize im a) (BlocksRuntime.blockSize a) := by
  intro U r s b t h hrun
  obtain ⟨_, s', hload, hrun⟩ := bind_eq_ok hrun
  obtain ⟨rfl, c, hc, rfl⟩ := loadBlock_inv hload
  obtain ⟨rfl, hget⟩ := wordAt_inv hrun
  obtain ⟨o, ho, hb⟩ := h.block a c hc
  rw [blockSize, run_bind (hb.descriptor_run ho)]
  exact hb.word_run hget r

/-- An accessor that looks at the flags only. -/
theorem reads_flags {β : Type} (im : Image) (a : Addr) (f : Flags → β) :
    ReadsLike im (do
      let flags ← load32 a 8
      return f flags) (do
      let aBlock ← loadBlock a
      return f aBlock.flags) := by
  intro U r s b t h hrun
  obtain ⟨_, s', hload, hrun⟩ := bind_eq_ok hrun
  obtain ⟨rfl, c, hc, rfl⟩ := loadBlock_inv hload
  obtain ⟨rfl, rfl⟩ := Prod.mk.inj (Except.ok.inj hrun)
  obtain ⟨o, ho, hb⟩ := h.block a c hc
  rw [run_bind (hb.flags_run ho), run_pure]

theorem reads_blockUseStret (im : Image) (a : Addr) :
    ReadsLike im (blockUseStret a) (BlocksRuntime.blockUseStret a) :=
  reads_flags im a fun flags =>
    decide (flags &&& (BLOCK_HAS_SIGNATURE ||| BLOCK_USE_STRET) =
      BLOCK_HAS_SIGNATURE ||| BLOCK_USE_STRET)

theorem reads_blockIsDeallocating (im : Image) (a : Addr) :
    ReadsLike im (blockIsDeallocating a) (BlocksRuntime.blockIsDeallocating a) :=
  reads_flags im a fun flags => decide (flags &&& BLOCK_DEALLOCATING ≠ 0)

theorem reads_blockSignature (im : Image) (a : Addr) :
    ReadsLike im (blockSignature im a) (BlocksRuntime.blockSignature a) := by
  intro U r s b t h hrun
  obtain ⟨_, s', hload, hrun⟩ := bind_eq_ok hrun
  obtain ⟨rfl, c, hc, rfl⟩ := loadBlock_inv hload
  obtain ⟨o, ho, hb⟩ := h.block a c hc
  rw [blockSignature]
  rcases blockDescriptor3_run hb ho with ⟨hnone, hraw⟩ | ⟨k, hsome, hraw⟩
  · rw [hnone] at hrun
    obtain ⟨rfl, rfl⟩ := Prod.mk.inj (Except.ok.inj hrun)
    rw [run_bind hraw]
    rfl
  · rw [hsome] at hrun
    rw [run_bind hraw]
    exact descriptor3_word hb hrun r

theorem reads_blockHasSignature (im : Image) (a : Addr) :
    ReadsLike im (blockHasSignature im a) (BlocksRuntime.blockHasSignature a) := by
  intro U r s b t h hrun
  obtain ⟨signature, s', hfirst, hrun⟩ := bind_eq_ok hrun
  obtain ⟨rfl, rfl⟩ := Prod.mk.inj (Except.ok.inj hrun)
  rw [blockHasSignature, run_bind (reads_blockSignature im a _ _ _ _ _ h hfirst), run_pure]

theorem reads_blockLayout (im : Image) (a : Addr) :
    ReadsLike im (blockLayout im a) (BlocksRuntime.blockLayout a) := by
  intro U r s b t h hrun
  obtain ⟨_, s', hload, hrun⟩ := bind_eq_ok hrun
  obtain ⟨rfl, c, hc, rfl⟩ := loadBlock_inv hload
  obtain ⟨o, ho, hb⟩ := h.block a c hc
  rw [blockLayout, run_bind (hb.flags_run ho)]
  by_cases hext : c.layout.flags &&& BLOCK_HAS_EXTENDED_LAYOUT ≠ 0
  · rw [if_pos hext] at hrun ⊢
    obtain ⟨rfl, rfl⟩ := Prod.mk.inj (Except.ok.inj hrun)
    rfl
  rw [if_neg hext] at hrun ⊢
  rcases blockDescriptor3_run hb ho with ⟨hnone, hraw⟩ | ⟨k, hsome, hraw⟩
  · rw [hnone] at hrun
    obtain ⟨rfl, rfl⟩ := Prod.mk.inj (Except.ok.inj hrun)
    rw [run_bind hraw]
    rfl
  · rw [hsome] at hrun
    rw [run_bind hraw]
    exact descriptor3_word hb hrun r

theorem reads_blockExtendedLayout (im : Image) (a : Addr) :
    ReadsLike im (blockExtendedLayout im a) (BlocksRuntime.blockExtendedLayout a) := by
  intro U r s b t h hrun
  obtain ⟨_, s', hload, hrun⟩ := bind_eq_ok hrun
  obtain ⟨rfl, c, hc, rfl⟩ := loadBlock_inv hload
  obtain ⟨o, ho, hb⟩ := h.block a c hc
  rw [blockExtendedLayout, run_bind (hb.flags_run ho)]
  by_cases hext : c.layout.flags &&& BLOCK_HAS_EXTENDED_LAYOUT = 0
  · rw [if_pos hext] at hrun ⊢
    obtain ⟨rfl, rfl⟩ := Prod.mk.inj (Except.ok.inj hrun)
    rfl
  rw [if_neg hext] at hrun ⊢
  rcases blockDescriptor3_run hb ho with ⟨hnone, hraw⟩ | ⟨k, hsome, hraw⟩
  · rw [hnone] at hrun
    obtain ⟨rfl, rfl⟩ := Prod.mk.inj (Except.ok.inj hrun)
    rw [run_bind hraw]
    rfl
  · rw [hsome] at hrun
    obtain ⟨word, s, hword, hlast⟩ := bind_eq_ok hrun
    rw [run_bind hraw]
    show (dataWord im (o.field 8 24) (8 * k + 8) >>= fun word =>
      if word = NULL then pure ExtendedLayout.empty else pure (.layout word)) r = _
    rw [run_bind (descriptor3_word (i := 1) hb hword r)]
    by_cases hnull : word = NULL
    · rw [if_pos hnull] at hlast ⊢
      obtain ⟨rfl, rfl⟩ := Prod.mk.inj (Except.ok.inj hlast)
      rfl
    · rw [if_neg hnull] at hlast ⊢
      obtain ⟨rfl, rfl⟩ := Prod.mk.inj (Except.ok.inj hlast)
      rfl

/-- The accessors, read off the parts of the descriptor. -/
structure RawAnswers (im : Image) (p : DescriptorParts) (w : Flags) (a : Addr) (r : RawMem) :
    Prop where
  size : blockSize im a r = .ok (p.size, r)
  useStret : blockUseStret a r =
    .ok (decide (w &&& BLOCK_HAS_SIGNATURE ≠ 0 ∧ w &&& BLOCK_USE_STRET ≠ 0), r)
  signature : blockSignature im a r =
    .ok (if w &&& BLOCK_HAS_SIGNATURE ≠ 0 then p.signature else NULL, r)
  hasSignature : blockHasSignature im a r =
    .ok (decide (w &&& BLOCK_HAS_SIGNATURE ≠ 0 ∧ p.signature ≠ NULL), r)
  layout : blockLayout im a r =
    .ok (if w &&& BLOCK_HAS_SIGNATURE ≠ 0 ∧ w &&& BLOCK_HAS_EXTENDED_LAYOUT = 0 then p.layout
      else NULL, r)
  extendedLayout : blockExtendedLayout im a r =
    .ok (if w &&& BLOCK_HAS_SIGNATURE ≠ 0 ∧ w &&& BLOCK_HAS_EXTENDED_LAYOUT ≠ 0 then
        if p.layout = NULL then .empty else .layout p.layout
      else .null, r)

theorem blockIsDeallocating_eq (hc : s.blocks a = some c) :
    BlocksRuntime.blockIsDeallocating a s = .ok (isDeallocating c.layout.flags, s) := by
  have hbit : decide (c.layout.flags &&& BLOCK_DEALLOCATING ≠ 0) =
      isDeallocating c.layout.flags := by
    rw [Bool.eq_iff_iff, decide_eq_true_iff, and_deallocating_ne_zero]
  rw [BlocksRuntime.blockIsDeallocating, bind_ok (loadBlock_ok hc), ← hbit]
  rfl

/-- Pointer arithmetic on the descriptor finds the parts that the compiler laid
out, in every block with the metadata of the literal, and the flags word tells
whether the block is being deallocated. -/
theorem accessors_read {literal : BlockLayout} {p : DescriptorParts} (h : Represents im U r s)
    (hc : s.blocks a = some c) (hcarries : Carries literal c.layout)
    (hdesc : literal.descriptor = p.words literal.flags) :
    RawAnswers im p literal.flags a r ∧
      blockIsDeallocating a r = .ok (isDeallocating c.layout.flags, r) := by
  have hanswers := hcarries.answers hc hdesc
  refine ⟨?_, reads_blockIsDeallocating im a _ _ _ _ _ h (blockIsDeallocating_eq hc)⟩
  exact {
    size := reads_blockSize im a _ _ _ _ _ h hanswers.size
    useStret := reads_blockUseStret im a _ _ _ _ _ h hanswers.useStret
    signature := reads_blockSignature im a _ _ _ _ _ h hanswers.signature
    hasSignature := reads_blockHasSignature im a _ _ _ _ _ h hanswers.hasSignature
    layout := reads_blockLayout im a _ _ _ _ _ h hanswers.layout
    extendedLayout := reads_blockExtendedLayout im a _ _ _ _ _ h hanswers.extendedLayout }

end

def signedBytes : Object :=
  laidOut [(8, 1000), (4, signedLiteral.flags.toNat), (4, 0), (8, 400), (8, 700), (8, 50)]

theorem signedBytes_ok : BlockBytes sampleImage signedLiteral signedBytes where
  isa := by decide
  flags := by decide
  reserved := by decide
  invoke := by decide
  descriptor := by
    refine ⟨laidOut [(8, 0), (8, 40), (8, 401), (8, 402), (8, 403), (8, 0x100)], ?_, by decide,
      forall_getElem? (by decide), ⟨40, rfl, by decide, by decide⟩, ?_, ?_⟩
    · rw [show signedBytes.field 8 24 = 700 by decide]
      rfl
    · rintro - w hw
      obtain rfl : 401 = w := Option.some.inj hw
      rfl
    · rintro - w hw
      obtain rfl : 402 = w := Option.some.inj hw
      rfl
  captured := forall_getElem? (by decide)

theorem accessors_read_signed :
    RawAnswers sampleImage signedParts signedLiteral.flags 1 (RawMem.empty.create signedBytes) ∧
      blockIsDeallocating 1 (RawMem.empty.create signedBytes) =
        .ok (true, RawMem.empty.create signedBytes) := by
  have h := (represents_empty sampleImage).newBlock (c := ⟨.stack, signedLiteral⟩) (by decide)
    signedBytes_ok
  obtain ⟨hanswers, hbit⟩ := accessors_read (p := signedParts) h (Mem.newBlock_self Mem.empty _)
    (Carries.refl _) rfl
  rw [show isDeallocating signedLiteral.flags = true by decide] at hbit
  exact ⟨hanswers, hbit⟩

end BlocksRuntime.Raw
