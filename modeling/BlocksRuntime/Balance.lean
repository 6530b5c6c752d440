import BlocksRuntime.OwnershipCount

/-!
# Balanced use

A program that gives up every reference leaks nothing, and the runtime does
everything once: each heap record is allocated, filled, disposed of and freed,
in this order, and objects are released as often as they were retained.

* `Chronicle` is the invariant of the events: what has happened to a record so
  far follows from whether it is there.
* `Balanced` is the invariant of the events about objects.
* `run_balanced` is the result.
-/

namespace BlocksRuntime

open Ownership

/-- The block literal at `src` has the helpers `desc`. -/
def LiteralAt (s : Mem) (src : Addr) (desc : Option (List Word)) : Prop :=
  ∃ b, s.blocks src = some b ∧ b.storage = .stack ∧ blockDescriptor2 b.layout = desc

/-- The `__block` variable at `src` has helpers according to `flag`. -/
def VariableAt (s : Mem) (src : Addr) (flag : Flags) : Prop :=
  ∃ b, s.byrefs src = some b ∧ b.storage = .stack ∧
    b.byref.flags &&& BLOCK_BYREF_HAS_COPY_DISPOSE = flag

/-- The events about each record so far. -/
structure Chronicle (s : Mem) : Prop where
  block_heap : ∀ a c, s.blocks a = some c → c.storage = .heap →
    ∃ src, LiteralAt s src (blockDescriptor2 c.layout) ∧
      history (.block a) s.trace = blockBirth src a c
  block_other : ∀ a c, s.blocks a = some c → c.storage ≠ .heap → history (.block a) s.trace = []
  block_none : ∀ a, s.blocks a = none → history (.block a) s.trace = [] ∨
    ∃ src c, LiteralAt s src (blockDescriptor2 c.layout) ∧
      history (.block a) s.trace = blockBirth src a c ++ blockDeath a c
  byref_heap : ∀ a c, s.byrefs a = some c → c.storage = .heap →
    ∃ src, VariableAt s src (c.byref.flags &&& BLOCK_BYREF_HAS_COPY_DISPOSE) ∧
      history (.byref a) s.trace = byrefBirth src a c
  byref_other : ∀ a c, s.byrefs a = some c → c.storage ≠ .heap → history (.byref a) s.trace = []
  byref_none : ∀ a, s.byrefs a = none → history (.byref a) s.trace = [] ∨
    ∃ src c, VariableAt s src (c.byref.flags &&& BLOCK_BYREF_HAS_COPY_DISPOSE) ∧
      history (.byref a) s.trace = byrefBirth src a c ++ byrefDeath a c
  /-- Nothing has happened at the addresses that were not handed out. -/
  fresh : ∀ a, s.next ≤ a →
    history (.block a) s.trace = [] ∧ history (.byref a) s.trace = []

/-- Objects are retained once for each captured variable that refers to
them. -/
def Balanced (s : Client) : Prop :=
  ∀ o, s.mem.trace.count (.retainObject o) = s.mem.trace.count (.releaseObject o) +
    (graphOf s.mem).refs (scopeRefs s.mem s.scope + s.held) (.object o)

section

variable {env : Env} {m n : Mem} {s t : Client} {op : Op} {res : Option Word} {scope : Finset Addr}
  {w e f : Multiset Ref}

theorem count_eq_history (x : Event) (l : List Event) :
    l.count x = (history x.subject l).count x := by
  rw [history, List.count_filter (by simp)]

/-! ## Literals and variables stay -/

/-- The literals and variables of `m` are those of `n` as well. -/
structure Keeps (m n : Mem) : Prop where
  block : ∀ src desc, LiteralAt m src desc → LiteralAt n src desc
  byref : ∀ src flag, VariableAt m src flag → VariableAt n src flag

theorem keeps_newBlock {c : BlockCell} (hs : Rep m) : Keeps m (m.newBlock c) where
  block src desc h := by
    obtain ⟨b, hb, hst, hdesc⟩ := h
    refine ⟨b, ?_, hst, hdesc⟩
    rw [Mem.newBlock_ne m c (hs.block_lt src b hb).ne, hb]
  byref _ _ h := h

theorem keeps_newByref {r : BlockByref} (hs : Rep m) : Keeps m (m.newByref r) where
  block _ _ h := h
  byref src flag h := by
    obtain ⟨b, hb, hst, hflag⟩ := h
    refine ⟨b, ?_, hst, hflag⟩
    rw [Mem.newByref_ne m r (hs.byref_lt src b hb).ne, hb]

theorem Persists.keeps (h : Persists env m n) : Keeps m n where
  block src desc hl := by
    obtain ⟨b, hb, hst, hdesc⟩ := hl
    exact ⟨b, h.block_dead hb (BlockCell.not_live_of_stack hst), hst, hdesc⟩
  byref src flag hv := by
    obtain ⟨b, hb, hst, hflag⟩ := hv
    rcases h.byref_stack hb hst with hstay | ⟨_, p, _, hp, _⟩
    · exact ⟨b, hstay, hst, hflag⟩
    · exact ⟨_, hp, hst, hflag⟩

theorem Shrinks.keeps (h : Shrinks m n f) : Keeps m n where
  block src desc hl := by
    obtain ⟨b, hb, hst, hdesc⟩ := hl
    exact ⟨b, h.block_dead hb (BlockCell.not_live_of_stack hst), hst, hdesc⟩
  byref src flag hv := by
    obtain ⟨b, hb, hst, hflag⟩ := hv
    exact ⟨b, h.byref_dead hb (ByrefCell.not_live_of_stack hst), hst, hflag⟩

theorem keeps_write {a : Addr} {d : ByrefCell} (hd : m.byrefs a = some d) (i : Nat)
    (value : Word) : Keeps m (m.setByref a (d.write i value)) where
  block _ _ h := h
  byref src flag h := by
    obtain ⟨b, hb, hst, hflag⟩ := h
    by_cases hsrc : src = a
    · subst hsrc
      rw [hd, Option.some.injEq] at hb
      subst hb
      exact ⟨_, Mem.setByref_byrefs_self _ _ _, hst, hflag⟩
    · exact ⟨b, by rw [Mem.setByref_byrefs_ne m _ hsrc, hb], hst, hflag⟩

/-! ## The events of records -/

theorem helpers_withFlags {c : ByrefCell} {v : Flags} (h : SameMeta v c.byref.flags) :
    (c.withFlags v).byref.flags &&& BLOCK_BYREF_HAS_COPY_DISPOSE =
      c.byref.flags &&& BLOCK_BYREF_HAS_COPY_DISPOSE :=
  and_eq_of_high_eq h.high _ (by decide)

/-- The heap copy of a variable has helpers if the variable has. -/
theorem Persists.helpers_of_move {v a : Addr} {b c : ByrefCell} (h : Persists env m n)
    (hb : m.byrefs v = some b) (hst : b.storage = .stack) (hf : b.byref.forwarding = v)
    (ha : m.byrefs a = none) (hmove : n.byrefs v = some (b.forward a)) (hc : n.byrefs a = some c) :
    c.byref.flags &&& BLOCK_BYREF_HAS_COPY_DISPOSE =
      b.byref.flags &&& BLOCK_BYREF_HAS_COPY_DISPOSE := by
  obtain ⟨w, hw, hm⟩ := h.heapCopyAt_of_move hb hst hf ha hmove
  rw [hc, Option.some.injEq] at hw
  rw [hw]
  have hheap : (heapByref env b.byref a).byref.flags &&& BLOCK_BYREF_HAS_COPY_DISPOSE =
      b.byref.flags &&& BLOCK_BYREF_HAS_COPY_DISPOSE := heapByrefFlags_other _ (by decide)
  rw [← hheap]
  exact helpers_withFlags hm

/-- Nothing happens to a literal. -/
theorem Chronicle.newBlock {c : BlockCell} (h : Chronicle m) (hs : Rep m)
    (hst : c.storage ≠ .heap) : Chronicle (m.newBlock c) where
  block_heap a d hd hheap := by
    by_cases ha : a = m.next
    · subst ha
      rw [Mem.newBlock_self, Option.some.injEq] at hd
      exact absurd (hd ▸ hheap) hst
    · rw [Mem.newBlock_ne m c ha] at hd
      obtain ⟨src, hsrc, hh⟩ := h.block_heap a d hd hheap
      exact ⟨src, (keeps_newBlock hs).block _ _ hsrc, hh⟩
  block_other a d hd hother := by
    by_cases ha : a = m.next
    · subst ha
      exact (h.fresh m.next le_rfl).1
    · rw [Mem.newBlock_ne m c ha] at hd
      exact h.block_other a d hd hother
  block_none a ha := by
    have hne : a ≠ m.next := fun he => by
      rw [he, Mem.newBlock_self] at ha
      cases ha
    rw [Mem.newBlock_ne m c hne] at ha
    exact (h.block_none a ha).imp id fun ⟨src, d, hsrc, hh⟩ =>
      ⟨src, d, (keeps_newBlock hs).block _ _ hsrc, hh⟩
  byref_heap := h.byref_heap
  byref_other := h.byref_other
  byref_none := h.byref_none
  fresh a ha := h.fresh a ((Nat.le_succ _).trans ha)

theorem Chronicle.newByref {r : BlockByref} (h : Chronicle m) (hs : Rep m) :
    Chronicle (m.newByref r) where
  block_heap := h.block_heap
  block_other := h.block_other
  block_none := h.block_none
  byref_heap a d hd hheap := by
    rcases Mem.newByref_cases hd with ⟨_, rfl⟩ | hd
    · cases hheap
    · obtain ⟨src, hsrc, hh⟩ := h.byref_heap a d hd hheap
      exact ⟨src, (keeps_newByref hs).byref _ _ hsrc, hh⟩
  byref_other a d hd hother := by
    rcases Mem.newByref_cases hd with ⟨rfl, _⟩ | hd
    · exact (h.fresh m.next le_rfl).2
    · exact h.byref_other a d hd hother
  byref_none a ha := by
    have hne : a ≠ m.next := fun he => by
      rw [he, Mem.newByref_self] at ha
      cases ha
    rw [Mem.newByref_ne m r hne] at ha
    exact (h.byref_none a ha).imp id fun ⟨src, d, hsrc, hh⟩ =>
      ⟨src, d, (keeps_newByref hs).byref _ _ hsrc, hh⟩
  fresh a ha := h.fresh a ((Nat.le_succ _).trans ha)

/-- Copying makes records with the events of their creation. -/
theorem Chronicle.extends (h : Chronicle m) (hr : Rep n) (hx : Extends env none m n e) :
    Chronicle n where
  block_heap a c hc hheap := by
    cases hm : m.blocks a with
    | none =>
      obtain ⟨hle, _, src, b, hb, hst, hdesc, hh⟩ := (hx.block_new a c hm hc).2 (by simp)
      rw [(h.fresh a hle).1, List.nil_append] at hh
      exact ⟨src, hx.persists.keeps.block _ _ ⟨b, hb, hst, hdesc.symm⟩, hh⟩
    | some c₀ =>
      obtain ⟨v, hv, hmeta, _⟩ := hx.persists.block a c₀ hm
      rw [hc, Option.some.injEq] at hv
      subst hv
      obtain ⟨src, hsrc, hh⟩ := h.block_heap a c₀ hm hheap
      refine ⟨src, ?_, ?_⟩
      · rw [blockDescriptor2_withFlags hmeta]
        exact hx.persists.keeps.block _ _ hsrc
      · rw [hx.block_old a (Or.inl (by simp [hm])), hh, blockBirth_withFlags hmeta]
  block_other a c hc hother := by
    cases hm : m.blocks a with
    | none => exact absurd (hx.block_new a c hm hc).1 hother
    | some c₀ =>
      obtain ⟨v, hv, _⟩ := hx.persists.block a c₀ hm
      rw [hc, Option.some.injEq] at hv
      subst hv
      rw [hx.block_old a (Or.inl (by simp [hm]))]
      exact h.block_other a c₀ hm hother
  block_none a ha := by
    have hm : m.blocks a = none := by
      by_contra hne
      exact hx.persists.block_ne_none hne ha
    rw [hx.block_old a (Or.inr ha)]
    exact (h.block_none a hm).imp id fun ⟨src, d, hsrc, hh⟩ =>
      ⟨src, d, hx.persists.keeps.block _ _ hsrc, hh⟩
  byref_heap a c hc hheap := by
    cases hm : m.byrefs a with
    | none =>
      obtain ⟨hle, _, v, b, hb, hst, hf, hmove, hh⟩ := hx.byref_new a c hm hc
      rw [(h.fresh a hle).2, List.nil_append] at hh
      refine ⟨v, hx.persists.keeps.byref _ _ ⟨b, hb, hst, ?_⟩, hh⟩
      exact (hx.persists.helpers_of_move hb hst hf hm hmove hc).symm
    | some c₀ =>
      rcases hx.persists.byref a c₀ hm with ⟨v, hv, hmeta, _⟩ | ⟨hst, _, p, _, hp, _⟩
      · rw [hc, Option.some.injEq] at hv
        subst hv
        obtain ⟨src, hsrc, hh⟩ := h.byref_heap a c₀ hm hheap
        refine ⟨src, ?_, ?_⟩
        · rw [helpers_withFlags hmeta]
          exact hx.persists.keeps.byref _ _ hsrc
        · rw [hx.byref_old a (Or.inl (by simp [hm])), hh, byrefBirth_withFlags hmeta]
      · rw [hc, Option.some.injEq] at hp
        rw [hp, ByrefCell.forward_storage, hst] at hheap
        cases hheap
  byref_other a c hc hother := by
    cases hm : m.byrefs a with
    | none =>
      obtain ⟨_, hl, _⟩ := hx.byref_new a c hm hc
      exact absurd hl.1 hother
    | some c₀ =>
      rw [hx.byref_old a (Or.inl (by simp [hm]))]
      refine h.byref_other a c₀ hm fun hheap => hother ?_
      obtain ⟨v, hv, _⟩ := hx.persists.byref_heap hm (by rw [hheap]; decide)
      rw [hc, Option.some.injEq] at hv
      rw [hv]
      exact hheap
  byref_none a ha := by
    have hm : m.byrefs a = none := by
      by_contra hne
      exact hx.persists.byref_ne_none hne ha
    rw [hx.byref_old a (Or.inr ha)]
    exact (h.byref_none a hm).imp id fun ⟨src, d, hsrc, hh⟩ =>
      ⟨src, d, hx.persists.keeps.byref _ _ hsrc, hh⟩
  fresh a ha := by
    have hb : n.blocks a = none := by
      by_contra hne
      obtain ⟨c, hc⟩ := Option.ne_none_iff_exists'.1 hne
      exact absurd (hr.block_lt a c hc) (not_lt.2 ha)
    have hy : n.byrefs a = none := by
      by_contra hne
      obtain ⟨c, hc⟩ := Option.ne_none_iff_exists'.1 hne
      exact absurd (hr.byref_lt a c hc) (not_lt.2 ha)
    rw [hx.block_old a (Or.inr hb), hx.byref_old a (Or.inr hy)]
    exact h.fresh a (hx.persists.next_le.trans ha)

/-- Releasing frees records with the events of their deallocation. -/
theorem Chronicle.shrinks (h : Chronicle m) (hs : Rep m) (hx : Shrinks m n f) : Chronicle n where
  block_heap a c hc hheap := by
    obtain ⟨c₀, v, hm, rfl, hmeta, _, hh⟩ := hx.block_some hc
    obtain ⟨src, hsrc, hb⟩ := h.block_heap a c₀ hm hheap
    refine ⟨src, ?_, by rw [hh, hb, blockBirth_withFlags hmeta]⟩
    rw [blockDescriptor2_withFlags hmeta]
    exact hx.keeps.block _ _ hsrc
  block_other a c hc hother := by
    obtain ⟨c₀, v, hm, rfl, _, _, hh⟩ := hx.block_some hc
    rw [hh]
    exact h.block_other a c₀ hm hother
  block_none a ha := by
    cases hm : m.blocks a with
    | none =>
      rw [(hx.block_none a hm).2]
      exact (h.block_none a hm).imp id fun ⟨src, d, hsrc, hh⟩ =>
        ⟨src, d, hx.keeps.block _ _ hsrc, hh⟩
    | some c =>
      rcases hx.block a c hm with ⟨v, hv, _⟩ | ⟨_, hl, hh⟩
      · rw [ha] at hv
        cases hv
      · obtain ⟨src, hsrc, hb⟩ := h.block_heap a c hm hl.1
        exact Or.inr ⟨src, c, hx.keeps.block _ _ hsrc, by rw [hh, hb]⟩
  byref_heap a c hc hheap := by
    obtain ⟨c₀, v, hm, rfl, hmeta, _, hh⟩ := hx.byref_some hc
    obtain ⟨src, hsrc, hb⟩ := h.byref_heap a c₀ hm hheap
    refine ⟨src, ?_, by rw [hh, hb, byrefBirth_withFlags hmeta]⟩
    rw [helpers_withFlags hmeta]
    exact hx.keeps.byref _ _ hsrc
  byref_other a c hc hother := by
    obtain ⟨c₀, v, hm, rfl, _, _, hh⟩ := hx.byref_some hc
    rw [hh]
    exact h.byref_other a c₀ hm hother
  byref_none a ha := by
    cases hm : m.byrefs a with
    | none =>
      rw [(hx.byref_none a hm).2]
      exact (h.byref_none a hm).imp id fun ⟨src, d, hsrc, hh⟩ =>
        ⟨src, d, hx.keeps.byref _ _ hsrc, hh⟩
    | some c =>
      rcases hx.byref a c hm with ⟨v, hv, _⟩ | ⟨_, hl, hh⟩
      · rw [ha] at hv
        cases hv
      · obtain ⟨src, hsrc, hb⟩ := h.byref_heap a c hm hl.1
        exact Or.inr ⟨src, c, hx.keeps.byref _ _ hsrc, by rw [hh, hb]⟩
  fresh a ha := by
    rw [hx.next] at ha
    have hb : m.blocks a = none := by
      by_contra hne
      obtain ⟨c, hc⟩ := Option.ne_none_iff_exists'.1 hne
      exact absurd (hs.block_lt a c hc) (not_lt.2 ha)
    have hy : m.byrefs a = none := by
      by_contra hne
      obtain ⟨c, hc⟩ := Option.ne_none_iff_exists'.1 hne
      exact absurd (hs.byref_lt a c hc) (not_lt.2 ha)
    rw [(hx.block_none a hb).2, (hx.byref_none a hy).2]
    exact h.fresh a ha

theorem Chronicle.write {a : Addr} {d : ByrefCell} (h : Chronicle m) (hd : m.byrefs a = some d)
    (i : Nat) (value : Word) : Chronicle (m.setByref a (d.write i value)) where
  block_heap := h.block_heap
  block_other := h.block_other
  block_none := h.block_none
  byref_heap b d' hb hheap := by
    obtain ⟨d₀, hd₀, rfl | ⟨rfl, rfl, rfl⟩⟩ := Mem.write_cases hd hb
    · obtain ⟨src, hsrc, hh⟩ := h.byref_heap b _ hd₀ hheap
      exact ⟨src, (keeps_write hd i value).byref _ _ hsrc, hh⟩
    · obtain ⟨src, hsrc, hh⟩ := h.byref_heap b d₀ hd₀ hheap
      exact ⟨src, (keeps_write hd i value).byref _ _ hsrc, hh⟩
  byref_other b d' hb hother := by
    obtain ⟨d₀, hd₀, rfl | ⟨rfl, rfl, rfl⟩⟩ := Mem.write_cases hd hb
    · exact h.byref_other b _ hd₀ hother
    · exact h.byref_other b d₀ hd₀ hother
  byref_none b hb := by
    have hne : b ≠ a := fun he => by
      rw [he, Mem.setByref_byrefs_self] at hb
      cases hb
    rw [Mem.setByref_byrefs_ne m _ hne] at hb
    exact (h.byref_none b hb).imp id fun ⟨src, d', hsrc, hh⟩ =>
      ⟨src, d', (keeps_write hd i value).byref _ _ hsrc, hh⟩
  fresh := h.fresh

/-- An allowed operation keeps the chronicle. -/
theorem Chronicle.transition (h : Chronicle s.mem) (hd : Disciplined s.mem s.scope s.held)
    (ht : Transition env s op res t) : Chronicle t.mem := by
  cases ht with
  | block c scope _ _ hst _ => exact h.newBlock hd.rep hst
  | declare r _ => exact h.newByref hd.rep
  | grow _ hc => exact h.extends hc.rep hc.frame
  | shrink _ hr _ _ =>
    obtain ⟨f, _, hsh⟩ := hr
    exact h.shrinks hd.rep hsh
  | read => exact h
  | write p i value _ _ hcell _ => exact h.write hcell i value

/-! ## The events of objects -/

/-- Copying retains an object once for each new reference. -/
theorem Extends.count_object (h : Extends env none m n e) (o : Addr) :
    n.trace.count (.retainObject o) = m.trace.count (.retainObject o) + e.count (.object o) ∧
      n.trace.count (.releaseObject o) = m.trace.count (.releaseObject o) := by
  have hh := h.object o
  rw [count_eq_history, count_eq_history _ m.trace, count_eq_history (.releaseObject o),
    count_eq_history (.releaseObject o) m.trace]
  simp only [Event.subject, hh, List.count_append, List.count_replicate]
  simp

/-- Releasing releases an object once for each reference that goes. -/
theorem Shrinks.count_object (h : Shrinks m n f) (o : Addr) :
    n.trace.count (.retainObject o) = m.trace.count (.retainObject o) ∧
      n.trace.count (.releaseObject o) =
        m.trace.count (.releaseObject o) + f.count (.object o) := by
  have hh := h.object o
  rw [count_eq_history, count_eq_history _ m.trace, count_eq_history (.releaseObject o),
    count_eq_history (.releaseObject o) m.trace]
  simp only [Event.subject, hh, List.count_append, List.count_replicate]
  simp

/-- An allowed operation keeps the balance of each object. -/
theorem Balanced.transition (h : Balanced s) (hd : Disciplined s.mem s.scope s.held)
    (ht : Transition env s op res t) : Balanced t := by
  intro o
  have ho := h o
  cases ht with
  | block c scope _ hok hst hscope =>
    have hrefs : scopeRefs (s.mem.newBlock c) scope = scopeRefs s.mem s.scope := by
      rcases hscope with rfl | rfl
      · rfl
      · exact scopeRefs_insert (scopeRef_of_none hd.rep.byref_next)
    simp only [hrefs, graphOf_newBlock hd.rep hok hst]
    exact ho
  | declare r hr =>
    have hzero : scopeRef (s.mem.newByref r) s.mem.next = 0 :=
      (scopeRef_newByref hd.rep _).trans (scopeRef_of_none hd.rep.byref_next)
    have hrefs : scopeRefs (s.mem.newByref r) (insert s.mem.next s.scope) =
        scopeRefs s.mem s.scope := by
      rw [scopeRefs_insert hzero]
      exact Finset.sum_congr rfl fun v _ => scopeRef_newByref hd.rep v
    simp only [hrefs, graphOf_newByref hd.rep hr]
    exact ho
  | @grow _ m _ b c _ _ _ hc =>
    obtain ⟨hretain, hrelease⟩ := hc.frame.count_object o
    have hgrows := hc.grows.frame s.held
    have hext : External s.mem (.object o) := trivial
    have hrefs := hgrows.refs_outer latched_pos hd.counted hext
    rw [add_right_comm, ownedRefs_block, Multiset.cons_add, add_comm s.held,
      ← Multiset.add_cons] at hrefs
    simp only [hretain, hrelease, hrefs]
    omega
  | @shrink _ m _ w held scope hr hw _ =>
    obtain ⟨f, hdrains, hsh⟩ := hr
    obtain ⟨hretain, hrelease⟩ := hsh.count_object o
    have hrefs := hdrains.refs_outer (x := .object o) (scopeRefs s.mem scope + held) rfl
    rw [← hw] at hrefs
    simp only [hretain, hrelease, hsh.scopeRefs scope]
    omega
  | read => exact ho
  | write p i value _ _ hcell _ =>
    have hrefs : scopeRefs (s.mem.setByref _ (ByrefCell.write _ i value)) s.scope =
        scopeRefs s.mem s.scope :=
      Finset.sum_congr rfl fun v _ => scopeRef_write hcell i value v
    simp only [hrefs, graphOf_write hcell]
    exact ho

/-! ## Ownership has no cycles -/

/-- A literal captures what exists already, and `_Block_copy` builds a block
after everything that it captures. -/
theorem Transition.acyclic (hd : Disciplined s.mem s.scope s.held)
    (ht : Transition env s op res t) (h : Acyclic (graphOf s.mem)) : Acyclic (graphOf t.mem) := by
  cases ht with
  | block c scope _ hok hst _ =>
    rw [graphOf_newBlock hd.rep hok hst]
    exact h
  | declare r hr =>
    rw [graphOf_newByref hd.rep hr]
    exact h
  | grow _ hc => exact (hc.grows.frame s.held).acyclic latched_pos hd.counted h
  | shrink _ hr _ _ =>
    obtain ⟨f, hdrains, _⟩ := hr
    exact hdrains.acyclic h
  | read => exact h
  | write p i value _ _ hcell _ =>
    rw [graphOf_write hcell]
    exact h

theorem graphOf_empty (r : Ref) : (graphOf Mem.empty).node r = none := by
  cases r <;> rfl

theorem acyclic_empty : Acyclic (graphOf Mem.empty) :=
  ⟨fun _ => 0, fun _ a _ ha => absurd (graphOf_empty a) ha⟩

theorem chronicle_empty : Chronicle Mem.empty where
  block_heap a c hc := by cases hc
  block_other a c hc := by cases hc
  block_none _ _ := Or.inl rfl
  byref_heap a c hc := by cases hc
  byref_other a c hc := by cases hc
  byref_none _ _ := Or.inl rfl
  fresh _ _ := ⟨rfl, rfl⟩

theorem balanced_start : Balanced .start := by
  intro o
  have hrefs : (graphOf Mem.empty).inRefs (.object o) = 0 :=
    Finset.sum_eq_zero fun r _ => by rw [Graph.owns_of_none (graphOf_empty r), Multiset.count_zero]
  simp [Client.start, Mem.empty, Graph.refs, scopeRefs] at hrefs ⊢
  exact hrefs

/-- The invariants of a run that are about the past. -/
theorem Run.past {accesses : List Access} (hmalloc : ∀ k, env.mallocOk k = true)
    (h : Run env .start accesses s) :
    Acyclic (graphOf s.mem) ∧ Chronicle s.mem ∧ Balanced s :=
  (Run.induct (P := fun _ u => Acyclic (graphOf u.mem) ∧ Chronicle u.mem ∧ Balanced u) hmalloc
    disciplined_empty ⟨acyclic_empty, chronicle_empty, balanced_start⟩
    (fun _ _ _ _ _ hd ⟨ha, hc, hb⟩ ht =>
      ⟨ht.acyclic hd ha, hc.transition hd ht, hb.transition hd ht⟩) h).2

/-! ## The result -/

theorem blockBirth_congr {b c : BlockCell}
    (h : blockDescriptor2 b.layout = blockDescriptor2 c.layout) (src a : Addr) :
    blockBirth src a b = blockBirth src a c := by
  rw [blockBirth, h, blockBirth]

theorem blockDeath_congr {b c : BlockCell}
    (h : blockDescriptor2 b.layout = blockDescriptor2 c.layout) (a : Addr) :
    blockDeath a b = blockDeath a c := by
  rw [blockDeath, h, blockDeath]

theorem byrefBirth_congr {b c : ByrefCell} (h : b.byref.flags &&& BLOCK_BYREF_HAS_COPY_DISPOSE =
    c.byref.flags &&& BLOCK_BYREF_HAS_COPY_DISPOSE) (src a : Addr) :
    byrefBirth src a b = byrefBirth src a c := by
  rw [byrefBirth, h, byrefBirth]

theorem byrefDeath_congr {b c : ByrefCell} (h : b.byref.flags &&& BLOCK_BYREF_HAS_COPY_DISPOSE =
    c.byref.flags &&& BLOCK_BYREF_HAS_COPY_DISPOSE) (a : Addr) :
    byrefDeath a b = byrefDeath a c := by
  rw [byrefDeath, h, byrefDeath]

/-- The events about a block that was allocated and is gone: those of its
creation from a literal, and then those of its deallocation. -/
theorem Chronicle.block_complete (h : Chronicle m) {src a : Addr}
    (he : .mallocBlock src a ∈ m.trace) (hgone : heapFlags m (.block a) = none) :
    ∃ b, m.blocks src = some b ∧ b.storage = .stack ∧
      history (.block a) m.trace = blockBirth src a b ++ blockDeath a b := by
  have hmem : Event.mallocBlock src a ∈ history (.block a) m.trace :=
    List.mem_filter.2 ⟨he, by simp [Event.subject]⟩
  have hempty : history (.block a) m.trace ≠ [] := List.ne_nil_of_mem hmem
  cases hc : m.blocks a with
  | none =>
    obtain ⟨src', c, ⟨b, hb, hst, hdesc⟩, hh⟩ := (h.block_none a hc).resolve_left hempty
    rw [← blockBirth_congr hdesc, ← blockDeath_congr hdesc] at hh
    have hsrc : src = src' := by
      rw [hh, blockBirth, blockDeath] at hmem
      cases hd : blockDescriptor2 b.layout with
      | none => simpa [hd] using hmem
      | some desc => simpa [hd] using hmem
    subst hsrc
    exact ⟨b, hb, hst, hh⟩
  | some c =>
    by_cases hheap : c.storage = .heap
    · simp [heapFlags, hc, Option.filter, hheap] at hgone
    · exact absurd (h.block_other a c hc hheap) hempty

/-- The events about a `__block` record that was allocated and is gone: those
of its creation from a variable, and then those of its deallocation. -/
theorem Chronicle.byref_complete (h : Chronicle m) {src a : Addr}
    (he : .mallocByref src a ∈ m.trace) (hgone : heapFlags m (.byref a) = none) :
    ∃ b, m.byrefs src = some b ∧ b.storage = .stack ∧
      history (.byref a) m.trace = byrefBirth src a b ++ byrefDeath a b := by
  have hmem : Event.mallocByref src a ∈ history (.byref a) m.trace :=
    List.mem_filter.2 ⟨he, by simp [Event.subject]⟩
  have hempty : history (.byref a) m.trace ≠ [] := List.ne_nil_of_mem hmem
  cases hc : m.byrefs a with
  | none =>
    obtain ⟨src', c, ⟨b, hb, hst, hflag⟩, hh⟩ := (h.byref_none a hc).resolve_left hempty
    rw [← byrefBirth_congr hflag, ← byrefDeath_congr hflag] at hh
    have hsrc : src = src' := by
      rw [hh, byrefBirth, byrefDeath] at hmem
      split at hmem <;> simpa using hmem
    subst hsrc
    exact ⟨b, hb, hst, hh⟩
  | some c =>
    by_cases hheap : c.storage = .heap
    · simp [heapFlags, hc, Option.filter, hheap] at hgone
    · exact absurd (h.byref_other a c hc hheap) hempty

/-- Balanced use leaks nothing and does everything once.  At the end of the
run the program holds references to global blocks only, and no `__block`
variable is in scope.  Counts that have latched would stay, so it is enough
that none is latched at the end. -/
theorem run_balanced {accesses : List Access} (hmalloc : ∀ k, env.mallocOk k = true)
    (h : Run env .start accesses s)
    (hheld : ∀ r ∈ s.held, ∃ b c, r = .block b ∧ s.mem.blocks b = some c ∧ c.storage = .global)
    (hscope : ∀ v ∈ s.scope, s.mem.byrefs v = none)
    (hlatch : ∀ o v, heapFlags s.mem o = some v → refcount v ≠ latched) :
    (∀ o, heapFlags s.mem o = none) ∧
      (∀ src a, .mallocBlock src a ∈ s.mem.trace →
        ∃ b, s.mem.blocks src = some b ∧ b.storage = .stack ∧
          history (.block a) s.mem.trace = blockBirth src a b ++ blockDeath a b) ∧
      (∀ src a, .mallocByref src a ∈ s.mem.trace →
        ∃ b, s.mem.byrefs src = some b ∧ b.storage = .stack ∧
          history (.byref a) s.mem.trace = byrefBirth src a b ++ byrefDeath a b) ∧
      ∀ o, s.mem.trace.count (.retainObject o) = s.mem.trace.count (.releaseObject o) := by
  have hd := h.disciplined hmalloc
  obtain ⟨hacyclic, hchronicle, hbalanced⟩ := h.past hmalloc
  have hvariables : scopeRefs s.mem s.scope = 0 :=
    Finset.sum_eq_zero fun v hv => scopeRef_of_none (hscope v hv)
  have hexternal : ∀ r ∈ scopeRefs s.mem s.scope + s.held, External s.mem r := by
    intro r hr
    rw [hvariables, zero_add] at hr
    obtain ⟨b, c, rfl, hc, hg⟩ := hheld r hr
    exact Or.inr ⟨c, hc, hg⟩
  -- Nothing is pending, and ownership has no cycles, so no node is left.
  have hnode : ∀ r, (graphOf s.mem).node r = none := by
    refine eq_none_of_sound (hd.counted.drop_outer hexternal) hd.positive hacyclic fun r n hn => ?_
    obtain ⟨v, hv, hcount⟩ := heapFlags_of_node hn
    rw [← hcount]
    exact hlatch r v hv
  have hgone : ∀ o, heapFlags s.mem o = none := by
    intro o
    by_contra hne
    obtain ⟨v, hv⟩ := Option.ne_none_iff_exists'.1 hne
    obtain ⟨_, n, hn, _⟩ := hd.node_of_heapFlags hv
    rw [hnode] at hn
    cases hn
  refine ⟨hgone, fun src a he => hchronicle.block_complete he (hgone _),
    fun src a he => hchronicle.byref_complete he (hgone _), fun o => ?_⟩
  have hheld' : s.held.count (.object o) = 0 := by
    refine Multiset.count_eq_zero.2 fun ho => ?_
    obtain ⟨b, _, hb, _⟩ := hheld _ ho
    cases hb
  have howned : (graphOf s.mem).inRefs (.object o) = 0 :=
    Finset.sum_eq_zero fun r _ => by rw [Graph.owns_of_none (hnode r), Multiset.count_zero]
  rw [hbalanced o, Graph.refs, hvariables, zero_add, hheld', howned, add_zero, add_zero]

end

/-- The copy is released, and the scope of the variable ends. -/
def endedClient : Client :=
  (Op.endScope 1 BLOCK_FIELD_IS_BYREF).after plentiful ((Op.release 4).after plentiful copiedClient)

theorem ended_run : Run plentiful .start [.declare 1 [10]] endedClient := by
  have hheld : Ref.block 4 ∈ copiedClient.held := by
    rw [copiedClient_held]
    exact Multiset.mem_singleton_self _
  have hrelease := copied_run.step (show Op.Allowed copiedClient (.release 4) from hheld)
    (show (Op.release 4).run plentiful copiedClient =
      .ok (none, (Op.release 4).after plentiful copiedClient) from rfl)
  exact hrelease.step
    (show Op.Allowed _ (.endScope 1 BLOCK_FIELD_IS_BYREF) from ⟨by decide, by decide, _, rfl, rfl⟩)
    (show (Op.endScope 1 BLOCK_FIELD_IS_BYREF).run plentiful _ = .ok (none, endedClient) from rfl)

theorem run_balanced_nested :
    (∀ o, heapFlags endedClient.mem o = none) ∧
      (∀ src a, .mallocBlock src a ∈ endedClient.mem.trace →
        ∃ b, endedClient.mem.blocks src = some b ∧ b.storage = .stack ∧
          history (.block a) endedClient.mem.trace = blockBirth src a b ++ blockDeath a b) ∧
      (∀ src a, .mallocByref src a ∈ endedClient.mem.trace →
        ∃ b, endedClient.mem.byrefs src = some b ∧ b.storage = .stack ∧
          history (.byref a) endedClient.mem.trace = byrefBirth src a b ++ byrefDeath a b) ∧
      ∀ o, endedClient.mem.trace.count (.retainObject o) =
        endedClient.mem.trace.count (.releaseObject o) := by
  have hrep := (ended_run.disciplined plentiful_mallocOk).rep
  have hblocks : ∀ a < 7, heapFlags endedClient.mem (.block a) = none := by decide
  have hbyrefs : ∀ a < 7, heapFlags endedClient.mem (.byref a) = none := by decide
  refine run_balanced plentiful_mallocOk ended_run ?_ (by decide) fun o v hv => ?_
  · exact fun r hr => absurd hr (Multiset.notMem_zero r)
  · cases o with
    | block a =>
      have hlt : a < 7 := by
        by_contra hge
        have hnone : endedClient.mem.blocks a = none := by
          by_contra hne
          obtain ⟨c, hc⟩ := Option.ne_none_iff_exists'.1 hne
          exact hge (hrep.block_lt a c hc)
        simp [heapFlags, hnone] at hv
      rw [hblocks a hlt] at hv
      cases hv
    | byref a =>
      have hlt : a < 7 := by
        by_contra hge
        have hnone : endedClient.mem.byrefs a = none := by
          by_contra hne
          obtain ⟨c, hc⟩ := Option.ne_none_iff_exists'.1 hne
          exact hge (hrep.byref_lt a c hc)
        simp [heapFlags, hnone] at hv
      rw [hbyrefs a hlt] at hv
      cases hv
    | object o => cases hv

end BlocksRuntime
