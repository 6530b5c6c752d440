import BlocksRuntime.Balance

/-!
# A variable is one cell

A `__block` variable has a record on the stack and at most one copy on the
heap.  Whoever reads it, through whichever pointer, sees the latest
assignment.

* `latest` is the abstract cell: the value after a list of accesses.
* `Holder` are the pointers to variables that a program may use.
* `Tracked` says that the events tell where a variable has moved to, so that
  `origin` names the variable behind a record.
* `OneCell` is the invariant of runs: the record that forwarding leads to has
  the words of the abstract cell.
-/

namespace BlocksRuntime

open Ownership

/-! ## The abstract cell -/

/-- The word `i` of the variable `v` after the accesses, the latest first. -/
def latest (v : Addr) (i : Nat) : List Access → Option Word
  | [] => none
  | .declare v' words :: older => if v' = v then words[i]? else latest v i older
  | .write v' i' value :: older => if v' = v ∧ i' = i then some value else latest v i older
  | .read _ _ _ :: older => latest v i older

/-- The heap copies of the variable `v` that were allocated. -/
def heapCopies (v : Addr) (trace : List Event) : List Addr :=
  trace.filterMap fun e =>
    match e with
    | .mallocByref src copy => if src = v then some copy else none
    | _ => none

/-- A pointer to the record of a variable that the program may use: the
address of a variable in scope, or what a live block has captured. -/
inductive Holder (s : Client) : Addr → Prop where
  | own (v : Addr) (c : ByrefCell) (hv : v ∈ s.scope) (hc : s.mem.byrefs v = some c) : Holder s v
  | captured (b : Addr) (c : BlockCell) (x : Capture) (hb : Alive s.mem s.scope b)
      (hc : s.mem.blocks b = some c) (hx : x ∈ c.layout.captured) (hk : x.kind.isByref) :
      Holder s x.value

/-! ## Where a variable has moved to -/

/-- The events tell where the variables have moved to. -/
structure Tracked (s : Mem) : Prop where
  copies : ∀ v a, .mallocByref v a ∈ s.trace →
    ∃ c, s.byrefs v = some c ∧ c.storage = .stack ∧ c.byref.forwarding = a ∧ a ≠ v
  moved : ∀ v c, s.byrefs v = some c → c.storage = .stack → c.byref.forwarding ≠ v →
    .mallocByref v c.byref.forwarding ∈ s.trace

section

variable {env : Env} {m n : Mem} {s t : Client} {op : Op} {res : Option Word} {scope : Finset Addr}
  {e f : Multiset Ref} {v a p : Addr} {c d : ByrefCell} {i : Nat} {accesses : List Access}

theorem mallocByref_mem {l : List Event} :
    .mallocByref v a ∈ l ↔ .mallocByref v a ∈ history (.byref a) l := by
  simp [history, Event.subject]

theorem mallocByref_mem_birth {v' : Addr} (h : .mallocByref v a ∈ byrefBirth v' a c) : v = v' := by
  unfold byrefBirth at h
  split at h <;> simpa using h

theorem mallocByref_notMem_death : .mallocByref v a ∉ byrefDeath a c := by
  unfold byrefDeath
  split <;> simp

/-- Copying adds events. -/
theorem Extends.history_byref (h : Extends env none m n e) (a : Addr) :
    ∃ l, history (.byref a) n.trace = history (.byref a) m.trace ++ l := by
  by_cases hold : m.byrefs a ≠ none ∨ n.byrefs a = none
  · exact ⟨[], by rw [h.byref_old a hold, List.append_nil]⟩
  · rw [not_or, not_not] at hold
    obtain ⟨c, hc⟩ := Option.ne_none_iff_exists'.1 hold.2
    obtain ⟨_, _, v, _, _, _, _, _, hh⟩ := h.byref_new a c hold.1 hc
    exact ⟨_, hh⟩

/-- Releasing does not allocate. -/
theorem Shrinks.mallocByref_iff (h : Shrinks m n f) (v a : Addr) :
    .mallocByref v a ∈ n.trace ↔ .mallocByref v a ∈ m.trace := by
  rw [mallocByref_mem, mallocByref_mem (l := m.trace)]
  cases hc : m.byrefs a with
  | none => rw [(h.byref_none a hc).2]
  | some c =>
    rcases h.byref a c hc with ⟨w, _, _, _, hh⟩ | ⟨_, _, hh⟩
    · rw [hh]
    · rw [hh, List.mem_append, or_iff_left mallocByref_notMem_death]

theorem tracked_empty : Tracked Mem.empty where
  copies v a h := by cases h
  moved v c hc := by cases hc

theorem Tracked.newByref {r : BlockByref} (h : Tracked m) (hs : Rep m) :
    Tracked (m.newByref r) where
  copies v a he := by
    obtain ⟨c, hc, hrest⟩ := h.copies v a he
    refine ⟨c, ?_, hrest⟩
    rw [Mem.newByref_ne m r (hs.byref_lt v c hc).ne, hc]
  moved v c hc hst hf := by
    rcases Mem.newByref_cases hc with ⟨rfl, rfl⟩ | hc
    · exact absurd rfl hf
    · exact h.moved v c hc hst hf

theorem Tracked.extends (h : Tracked m) (hs : Rep m) (hn : Rep n) (hx : Extends env none m n e) :
    Tracked n where
  copies v a he := by
    have hold : .mallocByref v a ∈ m.trace →
        ∃ c, n.byrefs v = some c ∧ c.storage = .stack ∧ c.byref.forwarding = a ∧ a ≠ v := by
      intro hm
      obtain ⟨c, hc, hst, hf, hne⟩ := h.copies v a hm
      rcases hx.persists.byref_stack hc hst with hstay | ⟨hf', _⟩
      · exact ⟨c, hstay, hst, hf, hne⟩
      · exact absurd (hf.symm.trans hf') hne
    by_cases hcase : m.byrefs a ≠ none ∨ n.byrefs a = none
    · rw [mallocByref_mem, hx.byref_old a hcase, ← mallocByref_mem] at he
      exact hold he
    · rw [not_or, not_not] at hcase
      obtain ⟨c, hc⟩ := Option.ne_none_iff_exists'.1 hcase.2
      obtain ⟨_, _, v', b, hb, hst, _, hmove, hh⟩ := hx.byref_new a c hcase.1 hc
      rw [mallocByref_mem, hh, List.mem_append, ← mallocByref_mem] at he
      rcases he with he | he
      · exact hold he
      · have hv := mallocByref_mem_birth he
        subst hv
        refine ⟨_, hmove, hst, rfl, fun hav => ?_⟩
        rw [hav, hb] at hcase
        cases hcase.1
  moved v c hc hst hf := by
    have hmono : ∀ a, .mallocByref v a ∈ m.trace → .mallocByref v a ∈ n.trace := by
      intro a ha
      obtain ⟨l, hl⟩ := hx.history_byref a
      rw [mallocByref_mem, hl]
      exact List.mem_append_left l (mallocByref_mem.1 ha)
    cases hm : m.byrefs v with
    | none =>
      obtain ⟨_, hl, _⟩ := hx.byref_new v c hm hc
      exact absurd hl (ByrefCell.not_live_of_stack hst)
    | some c₀ =>
      rcases hx.persists.byref v c₀ hm with ⟨w, hw, _⟩ | ⟨hst₀, _, q, hq, hmove, w, hcopy, _⟩
      · rw [hc, Option.some.injEq] at hw
        subst hw
        exact hmono _ (h.moved v c₀ hm hst hf)
      · -- The new record at `q` is the copy of a variable that forwards to `q`, so of `v`.
        rw [hc, Option.some.injEq] at hmove
        subst hmove
        have hnone : m.byrefs q = none := by
          by_contra hne
          obtain ⟨d, hd⟩ := Option.ne_none_iff_exists'.1 hne
          exact absurd (hs.byref_lt q d hd) (not_lt.2 hq)
        obtain ⟨_, _, v', b, _, hbst, _, hmove', hh⟩ := hx.byref_new q _ hnone hcopy
        have hv : v = v' := hn.forwarding_inj v v' _ _ hc hmove' hst hbst rfl
        subst hv
        show .mallocByref v q ∈ n.trace
        rw [mallocByref_mem, hh, byrefBirth]
        split <;> simp

theorem Tracked.shrinks (h : Tracked m) (hx : Shrinks m n f) : Tracked n where
  copies v a he := by
    rw [hx.mallocByref_iff] at he
    obtain ⟨c, hc, hst, hrest⟩ := h.copies v a he
    exact ⟨c, hx.byref_dead hc (ByrefCell.not_live_of_stack hst), hst, hrest⟩
  moved v c hc hst hf := by
    rw [hx.mallocByref_iff]
    obtain ⟨c₀, w, hm, rfl, _⟩ := hx.byref_some hc
    exact h.moved v c₀ hm hst hf

theorem Tracked.write (h : Tracked m) (hd : m.byrefs a = some d) (i : Nat) (value : Word) :
    Tracked (m.setByref a (d.write i value)) where
  copies v b he := by
    obtain ⟨c, hc, hst, hf, hne⟩ := h.copies v b he
    by_cases hv : v = a
    · subst hv
      rw [hd, Option.some.injEq] at hc
      subst hc
      exact ⟨_, Mem.setByref_byrefs_self m v _, hst, hf, hne⟩
    · exact ⟨c, by rw [Mem.setByref_byrefs_ne m _ hv, hc], hst, hf, hne⟩
  moved v c hc hst hf := by
    obtain ⟨c₀, hc₀, rfl | ⟨rfl, rfl, rfl⟩⟩ := Mem.write_cases hd hc
    · exact h.moved v _ hc₀ hst hf
    · exact h.moved v c₀ hc₀ hst hf

/-- An allowed operation keeps track of the variables. -/
theorem Tracked.transition (h : Tracked s.mem) (hd : Disciplined s.mem s.scope s.held)
    (ht : Transition env s op res t) : Tracked t.mem := by
  cases ht with
  | block c scope _ _ _ _ => exact ⟨h.copies, h.moved⟩
  | declare r _ => exact h.newByref hd.rep
  | grow _ hc => exact h.extends hd.rep hc.rep hc.frame
  | shrink _ hr _ _ =>
    obtain ⟨f, _, hsh⟩ := hr
    exact h.shrinks hsh
  | read => exact h
  | write p i value _ _ hcell _ => exact h.write hcell i value

/-! ## The variable behind a record -/

theorem findSome?_history (p : Addr) (l : List Event) :
    (history (.byref p) l).findSome? (Event.copiedFrom p) = l.findSome? (Event.copiedFrom p) := by
  induction l with
  | nil => rfl
  | cons x l ih =>
    by_cases hx : x.subject = .byref p
    · rw [history, List.filter_cons_of_pos (by simpa using hx), List.findSome?_cons,
        List.findSome?_cons, ← ih, history]
    · have hnone : x.copiedFrom p = none := by
        cases x with
        | mallocByref src copy =>
          have hne : copy ≠ p := fun he => hx (by rw [he]; rfl)
          simp [Event.copiedFrom, hne]
        | _ => rfl
      rw [history, List.filter_cons_of_neg (by simpa using hx), List.findSome?_cons, hnone, ← ih,
        history]

/-- The variable behind a record is determined by the events about it. -/
theorem origin_congr (h : history (.byref p) n.trace = history (.byref p) m.trace) :
    origin n p = origin m p := by
  rw [origin, ← findSome?_history, h, findSome?_history, origin]

theorem origin_of_birth (h : history (.byref p) m.trace = byrefBirth v p c) : origin m p = v := by
  rw [origin, ← findSome?_history, h, byrefBirth]
  split <;> simp [Event.copiedFrom]

theorem origin_of_nil (h : history (.byref p) m.trace = []) : origin m p = p := by
  rw [origin, ← findSome?_history, h]
  rfl

/-- A record on the stack is that of its own variable. -/
theorem Chronicle.origin_stack (h : Chronicle m) (hc : m.byrefs v = some c)
    (hst : c.storage = .stack) : origin m v = v := by
  apply origin_of_nil
  exact h.byref_other v c hc (by rw [hst]; decide)

/-- A heap record is the copy of its variable. -/
theorem Chronicle.origin_heap (h : Chronicle m) (hc : m.byrefs a = some c)
    (hst : c.storage = .heap) : .mallocByref (origin m a) a ∈ m.trace := by
  obtain ⟨v, _, hh⟩ := h.byref_heap a c hc hst
  rw [origin_of_birth hh, mallocByref_mem, hh, byrefBirth]
  split <;> simp

theorem ByrefCell.Ok.storage_cases (h : c.Ok a) : c.storage = .stack ∨ c.storage = .heap := by
  cases hst : c.storage with
  | stack => exact Or.inl rfl
  | heap => exact Or.inr rfl
  | global => exact absurd hst h.notGlobal

/-- The variable behind a record leads to the record, if forwarding ends
there. -/
theorem Tracked.follow_origin (h : Tracked m) (hs : Rep m) (hch : Chronicle m)
    (hd : m.byrefs a = some d) (hf : d.byref.forwarding = a) : follow m (origin m a) = a := by
  rcases (hs.byref_ok a d hd).storage_cases with hst | hst
  · rw [hch.origin_stack hd hst, follow_of hd, hf]
  · obtain ⟨c, hc, _, hca, _⟩ := h.copies _ _ (hch.origin_heap hd hst)
    rw [follow_of hc, hca]

/-- Forwarding ends after one step, and stays with the variable. -/
theorem Tracked.origin_forwarding (h : Tracked m) (hs : Rep m) (hch : Chronicle m)
    (hc : m.byrefs p = some c) (hd : m.byrefs c.byref.forwarding = some d) :
    d.byref.forwarding = c.byref.forwarding ∧ origin m c.byref.forwarding = origin m p := by
  by_cases hself : c.byref.forwarding = p
  · rw [hself, hc, Option.some.injEq] at hd
    subst hd
    exact ⟨rfl, by rw [hself]⟩
  · have hst : c.storage = .stack :=
      (hs.byref_ok p c hc).storage_cases.resolve_right fun hheap =>
        hself ((hs.byref_ok p c hc).heap hheap)
    have hmoved := h.moved p c hc hst hself
    have hmem := mallocByref_mem.1 hmoved
    have hheap : d.storage = .heap := by
      by_contra hne
      rw [hch.byref_other _ d hd hne] at hmem
      cases hmem
    obtain ⟨v, _, hh⟩ := hch.byref_heap _ d hd hheap
    rw [hh] at hmem
    have hv := mallocByref_mem_birth hmem
    rw [hch.origin_stack hc hst, origin_of_birth hh]
    exact ⟨(hs.byref_ok _ d hd).heap hheap, hv.symm⟩

theorem count_heapCopies (v a : Addr) (l : List Event) :
    (heapCopies v l).count a = l.count (.mallocByref v a) := by
  induction l with
  | nil => rfl
  | cons x l ih =>
    rw [heapCopies] at ih ⊢
    cases x with
    | mallocByref src copy =>
      by_cases hv : src = v
      · subst hv
        simp only [List.filterMap_cons, if_pos, List.count_cons, ih]
        simp
      · simp [hv, ih]
    | _ => simpa [List.filterMap_cons, List.count_cons] using ih

theorem mem_heapCopies {l : List Event} (h : a ∈ heapCopies v l) : .mallocByref v a ∈ l := by
  have hpos := List.count_pos_iff.2 h
  rw [count_heapCopies] at hpos
  exact List.count_pos_iff.1 hpos

/-- A heap record is allocated once. -/
theorem Chronicle.count_mallocByref (h : Chronicle m) (v a : Addr) :
    m.trace.count (.mallocByref v a) ≤ 1 := by
  have hbirth : ∀ (src : Addr) (c : ByrefCell),
      (byrefBirth src a c).count (.mallocByref v a) ≤ 1 := by
    intro src c
    unfold byrefBirth
    split <;> simp [List.count_cons] <;> split <;> omega
  have hdeath : ∀ c : ByrefCell, (byrefDeath a c).count (.mallocByref v a) = 0 :=
    fun c => List.count_eq_zero.2 mallocByref_notMem_death
  rw [count_eq_history]
  show (history (.byref a) m.trace).count _ ≤ 1
  cases hc : m.byrefs a with
  | none =>
    rcases h.byref_none a hc with hh | ⟨src, c, _, hh⟩
    · rw [hh]
      exact Nat.zero_le 1
    · rw [hh, List.count_append, hdeath]
      exact hbirth src c
  | some c =>
    by_cases hst : c.storage = .heap
    · obtain ⟨src, _, hh⟩ := h.byref_heap a c hc hst
      rw [hh]
      exact hbirth src c
    · rw [h.byref_other a c hc hst]
      exact Nat.zero_le 1

/-- A variable has one heap copy at most. -/
theorem Tracked.heapCopies_length (h : Tracked m) (hch : Chronicle m) (v : Addr) :
    (heapCopies v m.trace).length ≤ 1 := by
  cases hl : heapCopies v m.trace with
  | nil => exact Nat.zero_le 1
  | cons a as =>
    have ha : a ∈ heapCopies v m.trace := by
      rw [hl]
      exact List.mem_cons_self
    have hsame : ∀ b ∈ heapCopies v m.trace, a = b := by
      intro b hb
      obtain ⟨c, hc, _, hca, _⟩ := h.copies v a (mem_heapCopies ha)
      obtain ⟨c', hc', _, hcb, _⟩ := h.copies v b (mem_heapCopies hb)
      rw [hc, Option.some.injEq] at hc'
      rw [← hca, ← hcb, hc']
    rw [← hl, ← List.count_eq_length.2 hsame, count_heapCopies]
    exact hch.count_mallocByref v a

/-! ## The contents -/

/-- The record that forwarding leads to has the words of the abstract cell. -/
def OneCell (accesses : List Access) (s : Mem) : Prop :=
  ∀ p c, s.byrefs p = some c → c.byref.forwarding = p →
    ∀ i, c.byref.HasWord i → c.byref.storage[i]? = latest (origin s p) i accesses

theorem BlockByref.HasWord.congr {b r : BlockByref} (h : r.HasWord i) (h2 : b.byref2 = r.byref2)
    (hlen : b.storage.length = r.storage.length) : b.HasWord i := by
  unfold BlockByref.HasWord at h ⊢
  rw [h2, hlen]
  exact h

/-- Moving a variable copies its words. -/
theorem heapByref_word (hok : c.Ok v) (hi : c.byref.HasWord i) :
    (heapByref env c.byref p).byref.storage[i]? = c.byref.storage[i]? := by
  show (byrefStorage env c.byref)[i]? = _
  cases hh : c.byref.byref2 with
  | none => simp only [byrefStorage, hh]
  | some h =>
    have hlt := hi.lt hok
    have hfield : i = h.byrefKeep.field := by
      simpa only [BlockByref.HasWord, hh] using hi
    have hlen := length_byrefStorage env c.byref
    have hvalue := byrefStorage_field env hok hh
    rw [← hfield, List.getD_eq_getElem?_getD, List.getD_eq_getElem?_getD] at hvalue
    have hlt' : i < (byrefStorage env c.byref).length := by omega
    rw [List.getElem?_eq_getElem hlt, List.getElem?_eq_getElem hlt'] at hvalue ⊢
    exact congrArg some hvalue

theorem oneCell_start : OneCell [] Mem.empty := by
  intro p c hc
  cases hc

theorem origin_ne_next (h : Tracked m) (hs : Rep m) (hch : Chronicle m) (hc : m.byrefs p = some c) :
    origin m p ≠ m.next := by
  have hlt : ∀ v c, m.byrefs v = some c → v ≠ m.next := fun v c hc => (hs.byref_lt v c hc).ne
  rcases (hs.byref_ok p c hc).storage_cases with hst | hst
  · rw [hch.origin_stack hc hst]
    exact hlt p c hc
  · obtain ⟨c', hc', _⟩ := h.copies _ _ (hch.origin_heap hc hst)
    exact hlt _ c' hc'

theorem OneCell.newByref {r : BlockByref} (h : OneCell accesses m) (ht : Tracked m) (hs : Rep m)
    (hch : Chronicle m) : OneCell (.declare m.next r.storage :: accesses) (m.newByref r) := by
  intro p c hc hf i hi
  show _ = latest (origin m p) i _
  rcases Mem.newByref_cases hc with ⟨rfl, rfl⟩ | hc
  · rw [origin_of_nil (hch.fresh m.next le_rfl).2, latest, if_pos rfl]
  · rw [latest, if_neg (origin_ne_next ht hs hch hc).symm]
    exact h p c hc hf i hi

/-- A variable keeps its words when it moves. -/
theorem OneCell.extends (h : OneCell accesses m) (hs : Rep m) (hch : Chronicle m)
    (hx : Extends env none m n e) : OneCell accesses n := by
  intro p c hc hf i hi
  cases hm : m.byrefs p with
  | none =>
    obtain ⟨hle, _, v, b, hb, hst, hbf, hmove, hh⟩ := hx.byref_new p c hm hc
    obtain ⟨w, hw, _⟩ := hx.persists.heapCopyAt_of_move hb hst hbf hm hmove
    rw [hc, Option.some.injEq] at hw
    subst hw
    have hok := hs.byref_ok v b hb
    have hib : b.byref.HasWord i := hi.congr rfl (length_byrefStorage env b.byref).symm
    rw [(hch.fresh p hle).2, List.nil_append] at hh
    rw [origin_of_birth hh]
    show (heapByref env b.byref p).byref.storage[i]? = _
    rw [heapByref_word hok hib, h v b hb hbf i hib, hch.origin_stack hb hst]
  | some c₀ =>
    have horigin : origin n p = origin m p :=
      origin_congr (hx.byref_old p (Or.inl (by simp [hm])))
    rcases hx.persists.byref p c₀ hm with ⟨w, hw, _⟩ | ⟨_, _, q, hq, hmove, _⟩
    · rw [hc, Option.some.injEq] at hw
      subst hw
      rw [horigin]
      exact h p c₀ hm hf i hi
    · -- The record forwards to a new one, not to itself.
      rw [hc, Option.some.injEq] at hmove
      subst hmove
      have hpq : q = p := hf
      exact absurd (hs.byref_lt p c₀ hm) (not_lt.2 (hpq ▸ hq))

theorem OneCell.shrinks (h : OneCell accesses m) (hx : Shrinks m n f) : OneCell accesses n := by
  intro p c hc hf i hi
  obtain ⟨c₀, w, hm, rfl, _, _, hh⟩ := hx.byref_some hc
  rw [origin_congr hh]
  exact h p c₀ hm hf i hi

/-- An assignment through the pointer `p` changes one word of the variable
behind it. -/
theorem OneCell.write (h : OneCell accesses m) (ht : Tracked m) (hs : Rep m) (hch : Chronicle m)
    (hc : m.byrefs p = some c) (hd : m.byrefs c.byref.forwarding = some d)
    (hi : d.byref.HasWord i) (value : Word) :
    OneCell (.write (origin m p) i value :: accesses)
      (m.setByref c.byref.forwarding (d.write i value)) := by
  obtain ⟨hdf, horigin⟩ := ht.origin_forwarding hs hch hc hd
  have hlt := hi.lt (hs.byref_ok _ d hd)
  intro q c' hc' hf j hj
  show _ = latest (origin m q) j _
  obtain ⟨c₀, hc₀, hcase⟩ := Mem.write_cases hd hc'
  by_cases hq : q = c.byref.forwarding
  · subst hq
    rw [Mem.setByref_byrefs_self, Option.some.injEq] at hc'
    subst hc'
    have hj' : d.byref.HasWord j := hj.congr rfl List.length_set.symm
    rw [latest]
    show (d.byref.storage.set i value)[j]? = _
    by_cases hij : i = j
    · subst hij
      rw [if_pos ⟨horigin.symm, rfl⟩, List.getElem?_set_self hlt]
    · rw [if_neg fun hne => hij hne.2, List.getElem?_set_ne hij]
      exact h _ d hd hdf j hj'
  · rcases hcase with rfl | ⟨hq', _⟩
    · -- Another record that forwards to itself belongs to another variable.
      have hne : origin m p ≠ origin m q := by
        intro he
        apply hq
        rw [← ht.follow_origin hs hch hc₀ hf, ← he, ← horigin, ht.follow_origin hs hch hd hdf]
      rw [latest, if_neg fun hne' => hne hne'.1]
      exact h q c' hc₀ hf j hj
    · exact absurd hq' hq

/-- An allowed operation keeps the abstract cells. -/
theorem OneCell.transition (h : OneCell accesses s.mem) (hk : Tracked s.mem)
    (hch : Chronicle s.mem) (hd : Disciplined s.mem s.scope s.held)
    (ht : Transition env s op res t) : OneCell (op.accesses s.mem res ++ accesses) t.mem := by
  cases ht with
  | block c scope hop _ _ _ =>
    rw [hop.accesses]
    exact h
  | declare r _ => exact h.newByref hk hd.rep hch
  | grow hop hc =>
    rw [hop.accesses]
    exact h.extends hd.rep hch hc.frame
  | shrink hop hr _ _ =>
    rw [hop.accesses]
    obtain ⟨f, _, hsh⟩ := hr
    exact h.shrinks hsh
  | read p i w _ _ _ _ _ =>
    intro q c hc hf j hj
    exact h q c hc hf j hj
  | write p i value _ hc hcell hi => exact h.write hk hd.rep hch hc hcell hi value

/-- Each read returned the latest value. -/
def ReadsLatest (accesses : List Access) : Prop :=
  ∀ newer older v i w, accesses = newer ++ .read v i w :: older → latest v i older = some w

theorem readsLatest_nil : ReadsLatest [] := by
  intro newer older v i w h
  simp at h

theorem ReadsLatest.cons {x : Access} (h : ReadsLatest accesses)
    (hx : ∀ v i w, x = .read v i w → latest v i accesses = some w) :
    ReadsLatest (x :: accesses) := by
  intro newer older v i w he
  cases newer with
  | nil =>
    rw [List.nil_append, List.cons.injEq] at he
    rw [← he.2]
    exact hx v i w he.1
  | cons y newer =>
    rw [List.cons_append, List.cons.injEq] at he
    exact h newer older v i w he.2

theorem ReadsLatest.transition (h : ReadsLatest accesses) (hone : OneCell accesses s.mem)
    (hk : Tracked s.mem) (hch : Chronicle s.mem) (hd : Disciplined s.mem s.scope s.held)
    (ht : Transition env s op res t) : ReadsLatest (op.accesses s.mem res ++ accesses) := by
  cases ht with
  | block c scope hop _ _ _ =>
    rw [hop.accesses]
    exact h
  | declare r _ => exact h.cons fun v i w he => by cases he
  | grow hop hc =>
    rw [hop.accesses]
    exact h
  | shrink hop hr _ _ =>
    rw [hop.accesses]
    exact h
  | read p i w _ hc hcell hi hw =>
    obtain ⟨hdf, horigin⟩ := hk.origin_forwarding hd.rep hch hc hcell
    refine h.cons fun v j w' he => ?_
    rw [Access.read.injEq] at he
    obtain ⟨rfl, rfl, rfl⟩ := he
    rw [← hw, ← horigin]
    exact (hone _ _ hcell hdf i hi).symm
  | write p i value _ hc hcell hi => exact h.cons fun v i w he => by cases he

/-- The invariants of a run that are about variables. -/
theorem Run.variables (hmalloc : ∀ k, env.mallocOk k = true) (h : Run env .start accesses s) :
    Tracked s.mem ∧ Chronicle s.mem ∧ OneCell accesses s.mem ∧ ReadsLatest accesses :=
  (Run.induct (P := fun l u => Tracked u.mem ∧ Chronicle u.mem ∧ OneCell l u.mem ∧ ReadsLatest l)
    hmalloc disciplined_empty ⟨tracked_empty, chronicle_empty, oneCell_start, readsLatest_nil⟩
    (fun _ _ _ _ _ hd ⟨hk, hch, hone, hreads⟩ ht =>
      ⟨hk.transition hd ht, hch.transition hd ht, hone.transition hk hch hd ht,
        hreads.transition hone hk hch hd ht⟩) h).2

/-- A pointer that may be used is the address of a live record. -/
theorem Holder.alive (h : Holder s p) (hd : Disciplined s.mem s.scope s.held) :
    AliveByref s.mem s.scope p := by
  cases h with
  | own v c hv hc => exact ⟨c, hc, fun _ => hv, hd.settled_byref p c hc⟩
  | captured b c x hb hc hx hk => exact hb.capturedByref hd.rep hd.counted hc hx hk

/-- The record that a live one forwards to is alive, too. -/
theorem AliveByref.cells (env : Env) (h : AliveByref s.mem s.scope p)
    (hd : Disciplined s.mem s.scope s.held) :
    ∃ c d, s.mem.byrefs p = some c ∧ s.mem.byrefs c.byref.forwarding = some d ∧
      AliveByref s.mem s.scope c.byref.forwarding := by
  have hready : Ready env s.mem s.scope s.mem s.held :=
    ⟨Persists.refl env s.mem, hd.rep, hd.counted, hd.positive⟩
  obtain ⟨c, hc, ⟨_, hf, _⟩ | ⟨d, hcell, hl, _⟩⟩ := hready.byref_cases hd.rep h
  · refine ⟨c, c, hc, ?_, ?_⟩
    · rw [hf, hc]
    · rw [hf]
      exact h
  · refine ⟨c, d, hc, hcell, d, hcell, fun hst => ?_, fun _ => hl⟩
    exact absurd hl (ByrefCell.not_live_of_stack hst)

/-! ## The result -/

/-- A `__block` variable is one shared cell.  In every run, each read returned
the latest value, and each variable was copied to the heap at most once.  At
the end of the run, every pointer that a holder has is to a live record.  It
leads in one step to the one current record of its variable, which is alive and
has the latest value, so the variable may be accessed through it.  The next
allowed operation returns. -/
theorem run_shared_cell (hmalloc : ∀ k, env.mallocOk k = true) (h : Run env .start accesses s) :
    ReadsLatest accesses ∧ (∀ v, (heapCopies v s.mem.trace).length ≤ 1) ∧
      (∀ p, Holder s p → AliveByref s.mem s.scope p ∧ ∃ c d, s.mem.byrefs p = some c ∧
        c.byref.forwarding = follow s.mem (origin s.mem p) ∧
        AliveByref s.mem s.scope c.byref.forwarding ∧
        s.mem.byrefs c.byref.forwarding = some d ∧ d.byref.forwarding = c.byref.forwarding ∧
        ∀ i, d.byref.HasWord i →
          Accessible s p i ∧ d.byref.storage[i]? = latest (origin s.mem p) i accesses) ∧
      ∀ op : Op, op.Allowed s → ∃ res t, op.run env s = .ok (res, t) := by
  have hd := h.disciplined hmalloc
  obtain ⟨hk, hch, hone, hreads⟩ := h.variables hmalloc
  refine ⟨hreads, hk.heapCopies_length hch, fun p hp => ?_, fun op ha => ?_⟩
  · have halive := hp.alive hd
    obtain ⟨c, d, hc, hcell, htarget⟩ := halive.cells env hd
    obtain ⟨hdf, horigin⟩ := hk.origin_forwarding hd.rep hch hc hcell
    have hfollow := hk.follow_origin hd.rep hch hcell hdf
    rw [horigin] at hfollow
    refine ⟨halive, c, d, hc, hfollow.symm, htarget, hcell, hdf, fun i hi => ⟨?_, ?_⟩⟩
    · refine ⟨halive, d, ?_, hi⟩
      rw [follow_of hc, hcell]
    · rw [← horigin]
      exact hone _ d hcell hdf i hi
  · obtain ⟨res, t, hrun, _⟩ := Op.run_spec hd hmalloc ha
    exact ⟨res, t, hrun⟩

end

/-- The copied program assigns through the record on the stack.  All scopes end,
and it reads through the heap copy that the inner block has captured. -/
def sharedClient : Client :=
  (Op.read 6 0).after plentiful ((Op.leave 3).after plentiful ((Op.leave 2).after plentiful
    ((Op.endScope 1 BLOCK_FIELD_IS_BYREF).after plentiful
      ((Op.write 1 0 42).after plentiful copiedClient))))

theorem shared_run :
    Run plentiful .start [.read 1 0 42, .write 1 0 42, .declare 1 [10]] sharedClient := by
  have hwrite := copied_run.step
    (show Op.Allowed copiedClient (.write 1 0 42) from
      ⟨⟨_, rfl, fun _ => by decide, fun hst => absurd hst (by decide)⟩, _, rfl, Nat.one_pos⟩)
    (show (Op.write 1 0 42).run plentiful copiedClient =
      .ok (none, (Op.write 1 0 42).after plentiful copiedClient) from rfl)
  have hend := hwrite.step
    (show Op.Allowed _ (.endScope 1 BLOCK_FIELD_IS_BYREF) from
      ⟨by decide, List.mem_cons_self, _, rfl, rfl⟩) rfl
  have hinner := hend.step (show Op.Allowed _ (.leave 2) from ⟨_, rfl, rfl⟩) rfl
  have houter := hinner.step (show Op.Allowed _ (.leave 3) from ⟨_, rfl, rfl⟩) rfl
  exact houter.step
    (show Op.Allowed _ (.read 6 0) from
      ⟨⟨_, rfl, fun hst => absurd hst (by decide), fun _ => by decide⟩, _, rfl, Nat.one_pos⟩)
    (show (Op.read 6 0).run plentiful _ = .ok (some 42, sharedClient) from rfl)

theorem run_shared_cell_nested :
    ReadsLatest [.read 1 0 42, .write 1 0 42, .declare 1 [10]] ∧
      (∀ v, (heapCopies v sharedClient.mem.trace).length ≤ 1) ∧
      sharedClient.scope = ∅ ∧ AliveByref sharedClient.mem ∅ 6 ∧
      ∃ c d, sharedClient.mem.byrefs 6 = some c ∧
        c.byref.forwarding = follow sharedClient.mem (origin sharedClient.mem 6) ∧
        AliveByref sharedClient.mem ∅ c.byref.forwarding ∧
        sharedClient.mem.byrefs c.byref.forwarding = some d ∧
        d.byref.forwarding = c.byref.forwarding ∧
        ∀ i, d.byref.HasWord i → Accessible sharedClient 6 i ∧
          d.byref.storage[i]? = latest (origin sharedClient.mem 6) i
            [.read 1 0 42, .write 1 0 42, .declare 1 [10]] := by
  obtain ⟨hreads, hcopies, hholder, _⟩ := run_shared_cell plentiful_mallocOk shared_run
  refine ⟨hreads, hcopies, rfl, hholder 6 ?_⟩
  exact .captured 5 _ ⟨.byref, 6⟩ (.heap 5 _ rfl (by decide)) rfl (by decide) (Or.inl rfl)

end BlocksRuntime
