import BlocksRuntime.Creation

/-!
# What copying leaves behind

The frame of `_Block_copy`: what happens to the records that were there, and
what the new records look like.

* `heapBlock` and `heapByref` are the records that copying makes.
* `Persists` says that the old records are still there.  A live record may
  have another count, and a `__block` variable may have moved to the heap.
* `Extends` adds that the new records are heap records with the events of
  their creation.
* `CopyOf` relates a list of captured variables to its copy: nested stack
  blocks are copied in turn, and a nested block whose allocation failed has
  become `NULL`.
-/

namespace BlocksRuntime

open Ownership

/-! ## The records that copying makes -/

/-- A heap block before `isa` is set. -/
def halfBlock (b : BlockLayout) (captured : List Capture) : BlockCell :=
  ⟨.heap, { b with flags := heapBlockFlags b.flags, captured := captured }⟩

/-- A finished heap block. -/
def heapBlock (b : BlockLayout) (captured : List Capture) : BlockCell :=
  ⟨.heap, { b with isa := .mallocBlock, flags := heapBlockFlags b.flags, captured := captured }⟩

/-- The word of a `__block` variable that its keep helper handles. -/
def ByrefKeep.field : ByrefKeep → Nat
  | .assign field _ => field
  | .copy field => field

/-- The words of the heap copy of a `__block` record.  With helpers only the
layout word and the one field are copied, and the rest is fresh memory. -/
def byrefStorage (env : Env) (src : BlockByref) : List Word :=
  match src.byref2 with
  | none => src.storage
  | some h =>
    let fresh := (List.range src.storage.length).map env.junk
    let laid :=
      if src.flags &&& BLOCK_BYREF_LAYOUT_EXTENDED ≠ 0 then fresh.set 0 (src.storage.getD 0 0)
      else fresh
    laid.set h.byrefKeep.field (src.storage.getD h.byrefKeep.field 0)

/-- The heap copy of a `__block` record. -/
def heapByref (env : Env) (src : BlockByref) (copy : Addr) : ByrefCell :=
  ⟨.heap, {
    isa := .nil
    forwarding := copy
    flags := heapByrefFlags src.flags
    size := src.size
    byref2 := src.byref2
    storage := byrefStorage env src }⟩

/-- The record of a `__block` variable that has moved to `copy`. -/
def ByrefCell.forward (c : ByrefCell) (copy : Addr) : ByrefCell :=
  { c with byref := { c.byref with forwarding := copy } }

/-- The events of the creation of a heap block. -/
def blockBirth (src a : Addr) (c : BlockCell) : List Event :=
  match blockDescriptor2 c.layout with
  | some desc => [.mallocBlock src a, .copyHelper (desc.getD 0 0) a]
  | none => [.mallocBlock src a]

/-- The events of the creation of a heap copy of a `__block` record. -/
def byrefBirth (src a : Addr) (c : ByrefCell) : List Event :=
  if c.byref.flags &&& BLOCK_BYREF_HAS_COPY_DISPOSE ≠ 0 then [.mallocByref src a, .byrefKeep a]
  else [.mallocByref src a]

theorem blockBirth_withFlags {src a : Addr} {c : BlockCell} {w : Flags}
    (h : SameMeta w c.layout.flags) : blockBirth src a (c.withFlags w) = blockBirth src a c := by
  rw [blockBirth, blockDescriptor2_withFlags h, blockBirth]

theorem byrefBirth_withFlags {src a : Addr} {c : ByrefCell} {w : Flags}
    (h : SameMeta w c.byref.flags) : byrefBirth src a (c.withFlags w) = byrefBirth src a c := by
  have hm := and_eq_of_high_eq h.high BLOCK_BYREF_HAS_COPY_DISPOSE (by decide)
  simp only [byrefBirth, ByrefCell.withFlags, hm]

@[simp] theorem ByrefCell.forward_storage (c : ByrefCell) (h : Addr) :
    (c.forward h).storage = c.storage := rfl

theorem ByrefCell.forward_self {c : ByrefCell} {a : Addr} (h : c.byref.forwarding = a) :
    c.forward a = c := by
  subst h
  rfl

/-! ## Old records -/

/-- The record of a variable has its copy at `h`. -/
def HeapCopyAt (env : Env) (t : Mem) (c : ByrefCell) (h : Addr) : Prop :=
  ∃ w, t.byrefs h = some ((heapByref env c.byref h).withFlags w) ∧
    SameMeta w (heapByrefFlags c.byref.flags)

/-- What copying does to the records that are there. -/
structure Persists (env : Env) (s t : Mem) : Prop where
  next_le : s.next ≤ t.next
  block : ∀ a c, s.blocks a = some c →
    ∃ w, t.blocks a = some (c.withFlags w) ∧ SameMeta w c.layout.flags ∧
      (¬c.Live → w = c.layout.flags)
  byref : ∀ a c, s.byrefs a = some c →
    (∃ w, t.byrefs a = some (c.withFlags w) ∧ SameMeta w c.byref.flags ∧
      (¬c.Live → w = c.byref.flags)) ∨
    (c.storage = .stack ∧ c.byref.forwarding = a ∧
      ∃ h, s.next ≤ h ∧ t.byrefs a = some (c.forward h) ∧ HeapCopyAt env t c h)

namespace Persists

variable {env : Env} {s t u : Mem} {a : Addr}

theorem refl (env : Env) (s : Mem) : Persists env s s where
  next_le := le_rfl
  block _ c h := ⟨c.layout.flags, h, SameMeta.refl _, fun _ => rfl⟩
  byref _ c h := Or.inl ⟨c.byref.flags, h, SameMeta.refl _, fun _ => rfl⟩

/-- A heap record stays where it is. -/
theorem byref_heap (h : Persists env s t) {c : ByrefCell} (hc : s.byrefs a = some c)
    (hs : c.storage ≠ .stack) : ∃ w, t.byrefs a = some (c.withFlags w) ∧
      SameMeta w c.byref.flags ∧ (¬c.Live → w = c.byref.flags) := by
  rcases h.byref a c hc with hstay | ⟨hst, _⟩
  · exact hstay
  · exact absurd hst hs

theorem heapCopyAt (h : Persists env t u) {c : ByrefCell} {p : Addr} (hp : HeapCopyAt env t c p) :
    HeapCopyAt env u c p := by
  obtain ⟨w, hw, hm⟩ := hp
  obtain ⟨v, hv, hvm, _⟩ := h.byref_heap hw (by simp [heapByref, ByrefCell.withFlags])
  exact ⟨v, hv, hvm.trans hm⟩

/-- A variable on the stack stays or moves once. -/
theorem byref_stack (h : Persists env s t) {c : ByrefCell} (hc : s.byrefs a = some c)
    (hs : c.storage = .stack) : t.byrefs a = some c ∨
      (c.byref.forwarding = a ∧
        ∃ p, s.next ≤ p ∧ t.byrefs a = some (c.forward p) ∧ HeapCopyAt env t c p) := by
  rcases h.byref a c hc with ⟨w, hw, _, hl⟩ | ⟨_, hmove⟩
  · left
    rw [hw, hl (ByrefCell.not_live_of_stack hs), ByrefCell.withFlags_flags]
  · exact Or.inr hmove

/-- A variable that has moved has its copy there. -/
theorem heapCopyAt_of_move (h : Persists env s t) {v : Addr} {c : ByrefCell}
    (hc : s.byrefs v = some c) (hs : c.storage = .stack) (hf : c.byref.forwarding = v)
    (ha : s.byrefs a = none) (hmove : t.byrefs v = some (c.forward a)) : HeapCopyAt env t c a := by
  rcases h.byref_stack hc hs with hstay | ⟨_, p, _, hp, hcopy⟩
  · rw [hmove, Option.some.injEq] at hstay
    have hav : a = v := by
      rw [← hstay] at hf
      exact hf
    rw [hav, hc] at ha
    cases ha
  · rw [hmove, Option.some.injEq] at hp
    obtain rfl : a = p := congrArg (fun d => d.byref.forwarding) hp
    exact hcopy

/-- A block that is not live is not touched. -/
theorem block_dead (h : Persists env s t) {c : BlockCell} (hc : s.blocks a = some c)
    (hl : ¬c.Live) : t.blocks a = some c := by
  obtain ⟨w, hw, _, he⟩ := h.block a c hc
  rw [hw, he hl, BlockCell.withFlags_flags]

theorem trans (h : Persists env s t) (h' : Persists env t u) : Persists env s u where
  next_le := h.next_le.trans h'.next_le
  block a c hc := by
    obtain ⟨w, hw, hm, hl⟩ := h.block a c hc
    obtain ⟨v, hv, hvm, hvl⟩ := h'.block a _ hw
    refine ⟨v, hv, hvm.trans hm, fun hnl => ?_⟩
    rw [hvl (fun hlw => hnl ((BlockCell.live_withFlags hm).1 hlw))]
    exact hl hnl
  byref a c hc := by
    by_cases hst : c.storage = .stack
    · rcases h.byref_stack hc hst with hstay | ⟨hf, p, hp, hmove, hcopy⟩
      · rcases h'.byref_stack hstay hst with hstay' | ⟨hf, p, hp, hmove, hcopy⟩
        · exact Or.inl ⟨c.byref.flags, hstay', SameMeta.refl _, fun _ => rfl⟩
        · exact Or.inr ⟨hst, hf, p, h.next_le.trans hp, hmove, hcopy⟩
      · refine Or.inr ⟨hst, hf, p, hp, ?_, h'.heapCopyAt hcopy⟩
        rcases h'.byref_stack hmove hst with hstay' | ⟨hf', _⟩
        · exact hstay'
        · -- A variable does not move to its own address.
          have hpa : p = a := hf'
          obtain ⟨w, hw, _⟩ := hcopy
          rw [hpa, hmove, Option.some.injEq] at hw
          have hst' : (c.forward p).storage = .heap := by
            rw [hw]
            rfl
          rw [ByrefCell.forward_storage, hst] at hst'
          cases hst'
    · obtain ⟨w, hw, hm, hl⟩ := h.byref_heap hc hst
      obtain ⟨v, hv, hvm, hvl⟩ := h'.byref_heap hw hst
      refine Or.inl ⟨v, hv, hvm.trans hm, fun hnl => ?_⟩
      rw [hvl (fun hlw => hnl ((ByrefCell.live_withFlags hm).1 hlw))]
      exact hl hnl

theorem block_ne_none (h : Persists env s t) (ha : s.blocks a ≠ none) : t.blocks a ≠ none := by
  obtain ⟨c, hc⟩ := Option.ne_none_iff_exists'.1 ha
  obtain ⟨w, hw, _⟩ := h.block a c hc
  rw [hw]
  simp

theorem byref_ne_none (h : Persists env s t) (ha : s.byrefs a ≠ none) : t.byrefs a ≠ none := by
  obtain ⟨c, hc⟩ := Option.ne_none_iff_exists'.1 ha
  rcases h.byref a c hc with ⟨w, hw, _⟩ | ⟨_, _, p, _, hp, _⟩
  · rw [hw]
    simp
  · rw [hp]
    simp

end Persists

/-! ## New records -/

/-- The frame of a copy.  The block `d`, if any, is still being filled.  The
references in `e` to objects were taken. -/
structure Extends (env : Env) (d : Option Addr) (s t : Mem) (e : Multiset Ref) : Prop where
  persists : Persists env s t
  mallocs_le : s.mallocs ≤ t.mallocs
  block_old : ∀ a, s.blocks a ≠ none ∨ t.blocks a = none →
    history (.block a) t.trace = history (.block a) s.trace
  block_new : ∀ a c, s.blocks a = none → t.blocks a = some c →
    c.storage = .heap ∧ (some a ≠ d → s.next ≤ a ∧ c.Live ∧ ∃ src b, s.blocks src = some b ∧
      b.storage = .stack ∧ blockDescriptor2 c.layout = blockDescriptor2 b.layout ∧
      history (.block a) t.trace = history (.block a) s.trace ++ blockBirth src a c)
  byref_old : ∀ a, s.byrefs a ≠ none ∨ t.byrefs a = none →
    history (.byref a) t.trace = history (.byref a) s.trace
  byref_new : ∀ a c, s.byrefs a = none → t.byrefs a = some c →
    s.next ≤ a ∧ c.Live ∧ ∃ v b, s.byrefs v = some b ∧ b.storage = .stack ∧
      b.byref.forwarding = v ∧ t.byrefs v = some (b.forward a) ∧
      history (.byref a) t.trace = history (.byref a) s.trace ++ byrefBirth v a c
  object : ∀ o, history (.object o) t.trace =
    history (.object o) s.trace ++ List.replicate (e.count (.object o)) (.retainObject o)

namespace Extends

variable {env : Env} {d : Option Addr} {s t u : Mem} {e e' : Multiset Ref}

theorem refl (env : Env) (s : Mem) : Extends env none s s 0 where
  persists := Persists.refl env s
  mallocs_le := le_rfl
  block_old _ _ := rfl
  block_new a c h h' := by
    rw [h] at h'
    cases h'
  byref_old _ _ := rfl
  byref_new a c h h' := by
    rw [h] at h'
    cases h'
  object o := by simp

theorem trans (h : Extends env d s t e) (h' : Extends env none t u e') :
    Extends env d s u (e + e') where
  persists := h.persists.trans h'.persists
  mallocs_le := h.mallocs_le.trans h'.mallocs_le
  block_old a ha := by
    rcases ha with ha | ha
    · rw [h'.block_old a (Or.inl (h.persists.block_ne_none ha)), h.block_old a (Or.inl ha)]
    · have ht : t.blocks a = none := by
        by_contra hne
        exact h'.persists.block_ne_none hne ha
      rw [h'.block_old a (Or.inr ha), h.block_old a (Or.inr ht)]
  block_new a c hs hu := by
    cases ht : t.blocks a with
    | none =>
      obtain ⟨hheap, hnew⟩ := h'.block_new a c ht hu
      refine ⟨hheap, fun _ => ?_⟩
      obtain ⟨hle, hl, src, b, hb, hst, hdesc, hh⟩ := hnew (by simp)
      have hbs : s.blocks src = some b := by
        cases hsrc : s.blocks src with
        | none =>
          rw [(h.block_new src b hsrc hb).1] at hst
          cases hst
        | some b' =>
          obtain ⟨w, hw, _⟩ := h.persists.block src b' hsrc
          have hst' : b'.storage = .stack := by
            rw [hb, Option.some.injEq] at hw
            rw [hw] at hst
            exact hst
          have hdead : ¬b'.Live := BlockCell.not_live_of_stack hst'
          rw [← hb, h.persists.block_dead hsrc hdead]
      exact ⟨h.persists.next_le.trans hle, hl, src, b, hbs, hst, hdesc,
        by rw [hh, h.block_old a (Or.inr ht)]⟩
    | some c' =>
      obtain ⟨w, hw, hm, _⟩ := h'.persists.block a c' ht
      rw [hu, Option.some.injEq] at hw
      subst hw
      obtain ⟨hheap, hold⟩ := h.block_new a c' hs ht
      refine ⟨hheap, fun had => ?_⟩
      obtain ⟨hle, hl, src, b, hb, hst, hdesc, hh⟩ := hold had
      refine ⟨hle, (BlockCell.live_withFlags hm).2 hl, src, b, hb, hst,
        (blockDescriptor2_withFlags hm).trans hdesc, ?_⟩
      rw [h'.block_old a (Or.inl (by simp [ht])), hh, blockBirth_withFlags hm]
  byref_old a ha := by
    rcases ha with ha | ha
    · rw [h'.byref_old a (Or.inl (h.persists.byref_ne_none ha)), h.byref_old a (Or.inl ha)]
    · have ht : t.byrefs a = none := by
        by_contra hne
        exact h'.persists.byref_ne_none hne ha
      rw [h'.byref_old a (Or.inr ha), h.byref_old a (Or.inr ht)]
  byref_new a c hs hu := by
    cases ht : t.byrefs a with
    | none =>
      obtain ⟨hle, hl, v, b, hb, hst, hf, hv, hh⟩ := h'.byref_new a c ht hu
      have hbs : s.byrefs v = some b := by
        cases hsv : s.byrefs v with
        | none =>
          obtain ⟨_, hlive, _⟩ := h.byref_new v b hsv hb
          exact absurd hlive (ByrefCell.not_live_of_stack hst)
        | some b' =>
          have hst' : b'.storage = .stack := by
            rcases h.persists.byref v b' hsv with ⟨w, hw, _⟩ | ⟨h', _⟩
            · rw [hb, Option.some.injEq] at hw
              rw [hw] at hst
              exact hst
            · exact h'
          rcases h.persists.byref_stack hsv hst' with hstay | ⟨_, p, _, hp, w, hw, _⟩
          · rw [← hb, hstay]
          · -- A variable that has moved does not move again.
            rw [hb, Option.some.injEq] at hp
            have hpv : p = v := by
              rw [hp] at hf
              exact hf
            rw [hpv, hb, Option.some.injEq] at hw
            rw [hw] at hst
            cases hst
      refine ⟨h.persists.next_le.trans hle, hl, v, b, hbs, hst, hf, hv, ?_⟩
      rw [hh, h.byref_old a (Or.inr ht)]
    | some c' =>
      obtain ⟨hle, hl, v, b, hb, hst, hf, hv, hh⟩ := h.byref_new a c' hs ht
      obtain ⟨w, hw, hm, _⟩ := h'.persists.byref_heap ht (by rw [hl.1]; decide)
      rw [hu, Option.some.injEq] at hw
      subst hw
      refine ⟨hle, (ByrefCell.live_withFlags hm).2 hl, v, b, hb, hst, hf, ?_, ?_⟩
      · rcases h'.persists.byref_stack hv hst with hstay | ⟨hf', _⟩
        · exact hstay
        · have hav : a = v := hf'
          rw [hav, hb] at hs
          cases hs
      · rw [h'.byref_old a (Or.inl (by simp [ht])), hh, byrefBirth_withFlags hm]
  object o := by
    rw [h'.object, h.object, Multiset.count_add, List.append_assoc, List.replicate_append_replicate]

/-- Global blocks and objects stay what they are. -/
theorem external (h : Extends env d s t e) : External t = External s := by
  funext r
  cases r with
  | block a =>
    simp only [External, eq_iff_iff]
    refine or_congr Iff.rfl ⟨fun hg => ?_, fun hg => ?_⟩
    · obtain ⟨c, hc, hg⟩ := hg
      cases hs : s.blocks a with
      | none =>
        obtain ⟨hheap, _⟩ := h.block_new a c hs hc
        rw [hheap] at hg
        cases hg
      | some c' =>
        obtain ⟨w, hw, _⟩ := h.persists.block a c' hs
        rw [hc, Option.some.injEq] at hw
        rw [hw] at hg
        exact ⟨c', rfl, hg⟩
    · obtain ⟨c, hc, hg⟩ := hg
      exact ⟨c, h.persists.block_dead hc (BlockCell.not_live_of_global hg), hg⟩
  | byref a => rfl
  | object o => rfl

end Extends

/-! ## Copies of captured variables -/

/-- A captured variable that refers to a `__block` record. -/
def FieldKind.isByref (k : FieldKind) : Prop := k = .byref ∨ k = .weakByref

/-- The captured variables `ys` in `t` are a copy of `xs` in `s`.  `made` are
the blocks that were made, outer blocks first, and `lost` counts the nested
blocks that became `NULL` for lack of memory. -/
inductive CopyOf (s t : Mem) : List Capture → List Capture → List Addr → Nat → Prop where
  | nil : CopyOf s t [] [] [] 0
  /-- A bitwise copy, or an object. -/
  | plain (x : Capture) {xs ys : List Capture} {made : List Addr} {lost : Nat}
      (hx : x.kind = .plain ∨ x.kind = .object) (h : CopyOf s t xs ys made lost) :
      CopyOf s t (x :: xs) (x :: ys) made lost
  /-- A `__block` variable: the address of its heap copy. -/
  | byref (x : Capture) {xs ys : List Capture} {made : List Addr} {lost : Nat} {c : ByrefCell}
      (hx : x.kind.isByref) (hc : t.byrefs x.value = some c) {d : ByrefCell}
      (hd : t.byrefs c.byref.forwarding = some d) (hheap : d.storage = .heap)
      (h : CopyOf s t xs ys made lost) :
      CopyOf s t (x :: xs) ({ x with value := c.byref.forwarding } :: ys) made lost
  /-- `NULL`, a global block or a heap block. -/
  | shared (x : Capture) {xs ys : List Capture} {made : List Addr} {lost : Nat}
      (hx : x.kind = .block) (hs : ∀ c, s.blocks x.value = some c → c.storage ≠ .stack)
      (h : CopyOf s t xs ys made lost) : CopyOf s t (x :: xs) (x :: ys) made lost
  /-- A stack block that was copied to `r`. -/
  | fresh (x : Capture) {xs ys zs : List Capture} {m₁ m₂ : List Addr} {l₁ l₂ : Nat} {c : BlockCell}
      {r : Addr} {w : Flags} (hx : x.kind = .block) (hc : s.blocks x.value = some c)
      (hs : c.storage = .stack) (hr : t.blocks r = some ((heapBlock c.layout zs).withFlags w))
      (hw : SameMeta w (heapBlockFlags c.layout.flags)) (hz : CopyOf s t c.layout.captured zs m₁ l₁)
      (h : CopyOf s t xs ys m₂ l₂) :
      CopyOf s t (x :: xs) ({ x with value := r } :: ys) (r :: m₁ ++ m₂) (l₁ + l₂)
  /-- A stack block whose allocation failed. -/
  | failed (x : Capture) {xs ys : List Capture} {made : List Addr} {lost : Nat} {c : BlockCell}
      (hx : x.kind = .block) (hc : s.blocks x.value = some c) (hs : c.storage = .stack)
      (h : CopyOf s t xs ys made lost) :
      CopyOf s t (x :: xs) ({ x with value := NULL } :: ys) made (lost + 1)

namespace CopyOf

variable {env : Env} {s t u : Mem} {xs ys : List Capture} {made : List Addr} {lost : Nat}

/-- A copy stays a copy when more is copied. -/
theorem persists (h : CopyOf s t xs ys made lost) (hp : Persists env t u) :
    CopyOf s u xs ys made lost := by
  induction h with
  | nil => exact nil
  | plain x hx _ ih => exact plain x hx ih
  | @byref x _ _ _ _ c hx hc d hd hheap _ ih =>
    obtain ⟨v, hv, _⟩ := hp.byref_heap hd (by rw [hheap]; decide)
    by_cases hst : c.storage = .stack
    · rcases hp.byref_stack hc hst with hstay | ⟨hf, _⟩
      · exact byref x hx hstay hv hheap ih
      · -- The record at the address of the variable would be on the heap.
        rw [hf, hc, Option.some.injEq] at hd
        rw [← hd, hst] at hheap
        cases hheap
    · obtain ⟨w, hw, _⟩ := hp.byref_heap hc hst
      exact byref (c := c.withFlags w) x hx hw hv hheap ih
  | shared x hx hs _ ih => exact shared x hx hs ih
  | fresh x hx hc hs hr hw _ _ ihz ih =>
    obtain ⟨v, hv, hm, _⟩ := hp.block _ _ hr
    exact fresh x hx hc hs hv (hm.trans hw) ihz ih
  | failed x hx hc hs _ ih => exact failed x hx hc hs ih

/-- Copies side by side. -/
theorem append {xs' ys' : List Capture} {made' : List Addr} {lost' : Nat}
    (h : CopyOf s t xs ys made lost) (h' : CopyOf s t xs' ys' made' lost') :
    CopyOf s t (xs ++ xs') (ys ++ ys') (made ++ made') (lost + lost') := by
  induction h with
  | nil => simpa using h'
  | plain x hx _ ih => exact plain x hx ih
  | byref x hx hc hd hheap _ ih => exact byref x hx hc hd hheap ih
  | shared x hx hs _ ih => exact shared x hx hs ih
  | @fresh x _ _ _ _ _ _ _ _ _ _ hx hc hs hr hw hz _ _ ih =>
    simpa [add_assoc] using fresh x hx hc hs hr hw hz ih
  | @failed x _ _ _ l _ hx hc hs _ ih =>
    have hl : l + 1 + lost' = l + lost' + 1 := by omega
    rw [hl]
    exact failed x hx hc hs ih

/-- A copy has the same kinds of captured variables. -/
theorem kinds (h : CopyOf s t xs ys made lost) :
    ys.map Capture.kind = xs.map Capture.kind := by
  induction h with
  | nil => rfl
  | plain x hx _ ih => simp [ih]
  | byref x hx hc hd hheap _ ih => simp [ih]
  | shared x hx hs _ ih => simp [ih]
  | fresh x hx hc hs hr hw hz _ _ ih => simp [ih]
  | failed x hx hc hs _ ih => simp [ih]

theorem length_eq (h : CopyOf s t xs ys made lost) : ys.length = xs.length := by
  have hk := congrArg List.length h.kinds
  simpa using hk

/-- Each captured variable is copied on its own. -/
theorem get (h : CopyOf s t xs ys made lost) {i : Nat} {x : Capture} (hx : xs[i]? = some x) :
    ∃ y m l, ys[i]? = some y ∧ CopyOf s t [x] [y] m l ∧ l ≤ lost := by
  induction h generalizing i with
  | nil => simp at hx
  | plain x' hk _ ih =>
    cases i with
    | zero =>
      rw [List.getElem?_cons_zero, Option.some.injEq] at hx
      subst hx
      exact ⟨_, _, _, rfl, plain x' hk nil, Nat.zero_le _⟩
    | succ i => exact ih hx
  | byref x' hk hc hd hheap _ ih =>
    cases i with
    | zero =>
      rw [List.getElem?_cons_zero, Option.some.injEq] at hx
      subst hx
      exact ⟨_, _, _, rfl, byref x' hk hc hd hheap nil, Nat.zero_le _⟩
    | succ i => exact ih hx
  | shared x' hk hs _ ih =>
    cases i with
    | zero =>
      rw [List.getElem?_cons_zero, Option.some.injEq] at hx
      subst hx
      exact ⟨_, _, _, rfl, shared x' hk hs nil, Nat.zero_le _⟩
    | succ i => exact ih hx
  | fresh x' hk hc hs hr hw hz _ _ ih =>
    cases i with
    | zero =>
      rw [List.getElem?_cons_zero, Option.some.injEq] at hx
      subst hx
      exact ⟨_, _, _, rfl, fresh x' hk hc hs hr hw hz nil, Nat.le_add_right _ _⟩
    | succ i =>
      obtain ⟨y, m, l, hy, hcopy, hl⟩ := ih hx
      exact ⟨y, m, l, hy, hcopy, hl.trans (Nat.le_add_left _ _)⟩
  | failed x' hk hc hs _ ih =>
    cases i with
    | zero =>
      rw [List.getElem?_cons_zero, Option.some.injEq] at hx
      subst hx
      exact ⟨_, _, _, rfl, failed x' hk hc hs nil, Nat.le_add_left _ _⟩
    | succ i =>
      obtain ⟨y, m, l, hy, hcopy, hl⟩ := ih hx
      exact ⟨y, m, l, hy, hcopy, hl.trans (Nat.le_succ _)⟩

/-- The copy of a captured block: the block itself, a fresh block, or
`NULL`. -/
theorem block_cases {x y : Capture} (h : CopyOf s t [x] [y] made lost) (hk : x.kind = .block) :
    (y = x ∧ made = [] ∧ lost = 0 ∧ ∀ c, s.blocks x.value = some c → c.storage ≠ .stack) ∨
    (∃ c zs w m, s.blocks x.value = some c ∧ c.storage = .stack ∧ y.kind = .block ∧
      t.blocks y.value = some ((heapBlock c.layout zs).withFlags w) ∧
      SameMeta w (heapBlockFlags c.layout.flags) ∧ CopyOf s t c.layout.captured zs m lost ∧
      made = y.value :: m) ∨
    (y.value = NULL ∧ 0 < lost ∧ ∃ c, s.blocks x.value = some c ∧ c.storage = .stack) := by
  cases h with
  | plain _ hk' _ => rcases hk' with hk' | hk' <;> rw [hk] at hk' <;> cases hk'
  | byref _ hk' _ _ _ _ => rcases hk' with hk' | hk' <;> rw [hk] at hk' <;> cases hk'
  | shared _ _ hs h =>
    cases h
    exact Or.inl ⟨rfl, rfl, rfl, hs⟩
  | fresh _ _ hc hs hr hw hz h =>
    cases h
    exact Or.inr (Or.inl ⟨_, _, _, _, hc, hs, hk, hr, hw, hz, by simp⟩)
  | failed _ _ hc hs h =>
    cases h
    exact Or.inr (Or.inr ⟨rfl, Nat.succ_pos _, _, hc, hs⟩)

end CopyOf

end BlocksRuntime
