import BlocksRuntime.Meaning

/-!
# Programs that use the runtime

A single-threaded program, as the sequence of its operations on blocks and
`__block` variables.

* `Client` is the memory, with what is in scope and the references to blocks
  that the program holds.
* `Op.run` is what an operation does, and `Op.Allowed` is when the ownership
  discipline allows it.
* `Run` is a run of allowed operations.  It records the accesses to `__block`
  variables, the latest first.
* `Op.run_spec` says once what each operation does to the records, as a
  `Transition`.  Every invariant of runs is derived from that.
-/

namespace BlocksRuntime

open Ownership

/-! ## Accesses to variables -/

/-- Read a word of a `__block` variable through a pointer to its record. -/
def readVariable (p : Addr) (i : Nat) : M Word := do
  let r ← loadByref p
  let target ← loadByref r.forwarding
  wordAt target.storage i

/-- Assign to a word of a `__block` variable. -/
def writeVariable (p : Addr) (i : Nat) (value : Word) : M Unit := do
  let r ← loadByref p
  updateByref r.forwarding fun b => { b with storage := b.storage.set i value }

/-- The words that make up the variable: with helpers, the one field that they
handle. -/
def BlockByref.HasWord (r : BlockByref) (i : Nat) : Prop :=
  match r.byref2 with
  | none => i < r.storage.length
  | some h => i = h.byrefKeep.field

/-- The variable that an event copies to `p`. -/
def Event.copiedFrom (p : Addr) : Event → Option Addr
  | .mallocByref src copy => if copy = p then some src else none
  | _ => none

/-- The variable that the record at `p` belongs to: the one that it was copied
from, or that of its own if it is on the stack. -/
def origin (s : Mem) (p : Addr) : Addr := (s.trace.findSome? (Event.copiedFrom p)).getD p

/-- An access to a variable, which is identified by the address of its record
on the stack. -/
inductive Access where
  | declare (v : Addr) (words : List Word)
  | write (v : Addr) (i : Nat) (value : Word)
  | read (v : Addr) (i : Nat) (value : Word)
  deriving DecidableEq, Repr

/-! ## Operations -/

/-- The state of a program. -/
structure Client where
  mem : Mem
  /-- The stack blocks and the `__block` variables in scope. -/
  scope : Finset Addr
  /-- The references to blocks that the program holds. -/
  held : Multiset Ref

/-- A program that has not done anything. -/
def Client.start : Client := ⟨Mem.empty, ∅, 0⟩

/-- What a program does with blocks. -/
inductive Op where
  | globalBlock (b : BlockLayout)
  | literal (b : BlockLayout)
  | declare (r : BlockByref)
  | copy (b : Addr)
  | tryRetain (b : Addr)
  | release (b : Addr)
  | read (p : Addr) (i : Nat)
  | write (p : Addr) (i : Nat) (value : Word)
  /-- `_Block_object_dispose` on the variable `v` at the end of its scope. -/
  | endScope (v : Addr) (flags : Flags)
  /-- The end of the scope of a block literal. -/
  | leave (b : Addr)

/-- What an operation does.  A read also returns the word. -/
def Op.run (env : Env) (op : Op) (s : Client) : Except Fault (Option Word × Client) :=
  match op with
  | .globalBlock b => .ok (none, { s with mem := s.mem.newBlock ⟨.global, b⟩ })
  | .literal b =>
    .ok (none, ⟨s.mem.newBlock ⟨.stack, b⟩, insert s.mem.next s.scope, s.held⟩)
  | .declare r => .ok (none, ⟨s.mem.newByref r, insert s.mem.next s.scope, s.held⟩)
  | .copy b =>
    match blockCopy env b s.mem with
    | .ok (c, t) => .ok (none, ⟨t, s.scope, .block c ::ₘ s.held⟩)
    | .error e => .error e
  | .tryRetain b =>
    match blockTryRetain b s.mem with
    | .ok (retained, t) =>
      .ok (none, ⟨t, s.scope, if retained then .block b ::ₘ s.held else s.held⟩)
    | .error e => .error e
  | .release b =>
    match blockRelease b s.mem with
    | .ok (_, t) => .ok (none, ⟨t, s.scope, s.held.erase (.block b)⟩)
    | .error e => .error e
  | .read p i =>
    match readVariable p i s.mem with
    | .ok (w, t) => .ok (some w, { s with mem := t })
    | .error e => .error e
  | .write p i value =>
    match writeVariable p i value s.mem with
    | .ok (_, t) => .ok (none, { s with mem := t })
    | .error e => .error e
  | .endScope v flags =>
    match blockObjectDispose v flags s.mem with
    | .ok (_, t) => .ok (none, ⟨t, s.scope.erase v, s.held⟩)
    | .error e => .error e
  | .leave b => .ok (none, { s with scope := s.scope.erase b })

/-- The pointer `p` to a record may be used for the word `i` of its
variable. -/
def Accessible (s : Client) (p : Addr) (i : Nat) : Prop :=
  AliveByref s.mem s.scope p ∧ ∃ d, s.mem.byrefs (follow s.mem p) = some d ∧ d.byref.HasWord i

/-- When the ownership discipline allows an operation. -/
def Op.Allowed (s : Client) : Op → Prop
  | .globalBlock b => GlobalLiteral b
  | .literal b => StackLiteral s.mem b
  | .declare r => VariableRecord r
  | .copy b => Alive s.mem s.scope b
  | .tryRetain b => ∃ c, s.mem.blocks b = some c ∧ c.storage = .heap
  | .release b => .block b ∈ s.held
  | .read p i => Accessible s p i
  | .write p i _ => Accessible s p i
  | .endScope v flags => v ∈ s.scope ∧ flags ∈ scopeExitFlags ∧
      ∃ c, s.mem.byrefs v = some c ∧ c.storage = .stack
  | .leave b => ∃ c, s.mem.blocks b = some c ∧ c.storage = .stack

/-- The access to a variable that an operation makes. -/
def Op.accesses (s : Mem) (op : Op) (res : Option Word) : List Access :=
  match op, res with
  | .declare r, _ => [.declare s.next r.storage]
  | .write p i value, _ => [.write (origin s p) i value]
  | .read p i, some w => [.read (origin s p) i w]
  | _, _ => []

/-- A run of allowed operations from `s`, with the accesses to variables that
it makes, the latest first. -/
inductive Run (env : Env) (s : Client) : List Access → Client → Prop where
  | nil : Run env s [] s
  | step {accesses : List Access} {t u : Client} {op : Op} {res : Option Word}
      (h : Run env s accesses t) (ha : op.Allowed t) (hr : op.run env t = .ok (res, u)) :
      Run env s (op.accesses t.mem res ++ accesses) u

/-! ## What an operation does -/

/-- A record with another word. -/
def ByrefCell.write (c : ByrefCell) (i : Nat) (value : Word) : ByrefCell :=
  { c with byref := { c.byref with storage := c.byref.storage.set i value } }

/-- An operation that does not access a variable. -/
def Op.Quiet : Op → Prop
  | .declare _ => False
  | .read _ _ => False
  | .write _ _ _ => False
  | _ => True

theorem Op.Quiet.accesses {op : Op} (h : op.Quiet) (s : Mem) (res : Option Word) :
    op.accesses s res = [] := by
  cases op with
  | declare r => exact h.elim
  | read p i => exact h.elim
  | write p i value => exact h.elim
  | _ => rfl

theorem quiet_copy (b : Addr) : (Op.copy b).Quiet := trivial
theorem quiet_tryRetain (b : Addr) : (Op.tryRetain b).Quiet := trivial
theorem quiet_release (b : Addr) : (Op.release b).Quiet := trivial
theorem quiet_endScope (v : Addr) (flags : Flags) : (Op.endScope v flags).Quiet := trivial
theorem quiet_leave (b : Addr) : (Op.leave b).Quiet := trivial

/-- What an allowed operation does to the records. -/
inductive Transition (env : Env) (s : Client) : Op → Option Word → Client → Prop where
  /-- A block appears, global or on the stack. -/
  | block {op : Op} (c : BlockCell) (scope : Finset Addr) (hop : op.Quiet)
      (hok : c.Ok s.mem.next) (hst : c.storage ≠ .heap)
      (hscope : scope = s.scope ∨ scope = insert s.mem.next s.scope) :
      Transition env s op none ⟨s.mem.newBlock c, scope, s.held⟩
  | declare (r : BlockByref) (hr : VariableRecord r) :
      Transition env s (.declare r) none ⟨s.mem.newByref r, insert s.mem.next s.scope, s.held⟩
  /-- A block is copied or retained. -/
  | grow {op : Op} {t : Mem} (hop : op.Quiet) {b c : Addr} {made moved : List Addr}
      {e : Multiset Ref}
      (h : Copied env s.mem s.scope none s.mem t [⟨.block, b⟩] [⟨.block, c⟩] made 0 moved e) :
      Transition env s op none ⟨t, s.scope, .block c ::ₘ s.held⟩
  /-- The references in `w` are given up. -/
  | shrink {op : Op} {t : Mem} (hop : op.Quiet) {w held : Multiset Ref} {scope : Finset Addr}
      (h : Released s.mem w t)
      (hw : scopeRefs s.mem s.scope + s.held = w + (scopeRefs s.mem scope + held))
      (hscope : scope ⊆ s.scope) : Transition env s op none ⟨t, scope, held⟩
  | read (p : Addr) (i : Nat) (w : Word) {c d : ByrefCell} (hp : AliveByref s.mem s.scope p)
      (hc : s.mem.byrefs p = some c) (hd : s.mem.byrefs c.byref.forwarding = some d)
      (hi : d.byref.HasWord i) (hw : d.byref.storage[i]? = some w) :
      Transition env s (.read p i) (some w) s
  | write (p : Addr) (i : Nat) (value : Word) {c d : ByrefCell}
      (hp : AliveByref s.mem s.scope p) (hc : s.mem.byrefs p = some c)
      (hd : s.mem.byrefs c.byref.forwarding = some d) (hi : d.byref.HasWord i) :
      Transition env s (.write p i value) none
        ⟨s.mem.setByref c.byref.forwarding (d.write i value), s.scope, s.held⟩

section

variable {env : Env} {s t : Client} {op : Op} {res : Option Word} {m : Mem} {scope : Finset Addr}
  {w : Multiset Ref} {a p : Addr} {c d : ByrefCell} {i : Nat}

/-- A word of a variable is a word of its record. -/
theorem BlockByref.HasWord.lt (h : d.byref.HasWord i) (hok : d.Ok a) :
    i < d.byref.storage.length := by
  unfold BlockByref.HasWord at h
  split at h
  · exact h
  · next h2 hh =>
    obtain ⟨field, flags, hk, _, hlt⟩ := (hok.helpers h2 hh).keep
    rw [h, hk]
    exact hlt

theorem Accessible.cells (h : Accessible s p i) :
    ∃ c d, s.mem.byrefs p = some c ∧ s.mem.byrefs c.byref.forwarding = some d ∧
      d.byref.HasWord i := by
  obtain ⟨⟨c, hc, _⟩, d, hd, hi⟩ := h
  rw [follow_of hc] at hd
  exact ⟨c, d, hc, hd, hi⟩

theorem readVariable_ok {v : Word} (hc : m.byrefs p = some c)
    (hd : m.byrefs c.byref.forwarding = some d) (hw : d.byref.storage[i]? = some v) :
    readVariable p i m = .ok (v, m) := by
  unfold readVariable
  rw [bind_ok (loadByref_ok hc), bind_ok (loadByref_ok hd), wordAt_ok hw]

theorem writeVariable_ok (hc : m.byrefs p = some c) (hd : m.byrefs c.byref.forwarding = some d)
    (value : Word) :
    writeVariable p i value m = .ok ((), m.setByref c.byref.forwarding (d.write i value)) := by
  unfold writeVariable
  rw [bind_ok (loadByref_ok hc), updateByref_ok hd]
  rfl

/-- `_Block_tryRetain` on a block that is not being deallocated. -/
theorem blockTryRetain_spec {b : Addr} {c : BlockCell} (hs : Rep m) (hc : m.blocks b = some c)
    (hl : c.Live) : ∃ t, blockTryRetain b m = .ok (true, t) ∧
      Copied env m scope none m t [⟨.block, b⟩] [⟨.block, b⟩] [] 0 [] 0 := by
  obtain ⟨v, hrun, hcount, hm⟩ := tryIncr_run hl.2.2
  refine ⟨_, loopBlockFlags_ok hc _ hrun,
    copied_heap (x := ⟨.block, b⟩) hs rfl hc hl hcount hm fun d hd hst => ?_⟩
  rw [hc, Option.some.injEq] at hd
  rw [← hd, hl.1] at hst
  cases hst

/-- An allowed operation returns, and does what `Transition` says. -/
theorem Op.run_spec (hd : Disciplined s.mem s.scope s.held)
    (hmalloc : ∀ k, env.mallocOk k = true) (ha : op.Allowed s) :
    ∃ res t, op.run env s = .ok (res, t) ∧ Transition env s op res t := by
  cases op with
  | globalBlock b =>
    have hb : GlobalLiteral b := ha
    exact ⟨none, _, rfl, .block _ _ trivial (hb.ok _) (by simp) (Or.inl rfl)⟩
  | literal b =>
    have hb : StackLiteral s.mem b := ha
    exact ⟨none, _, rfl, .block _ _ trivial hb.ok (by simp) (Or.inr rfl)⟩
  | declare r => exact ⟨none, _, rfl, .declare r ha⟩
  | copy b =>
    obtain ⟨c, t, made, moved, e, hrun, hc⟩ :=
      blockCopy_ok hd.rep hd.counted hd.positive hmalloc ha
    exact ⟨none, _, by rw [Op.run, hrun], .grow (quiet_copy b) hc⟩
  | tryRetain b =>
    obtain ⟨c, hc, hheap⟩ := ha
    obtain ⟨t, hrun, hcopied⟩ := blockTryRetain_spec hd.rep hc (hd.settled_block b c hc hheap)
    exact ⟨none, _, by rw [Op.run, hrun]; rfl, .grow (quiet_tryRetain b) hcopied⟩
  | release b =>
    have hb : s.held = .block b ::ₘ s.held.erase (.block b) := (Multiset.cons_erase ha).symm
    have hw := hd.counted
    rw [hb] at hw
    obtain ⟨t, hrun, hr⟩ := blockRelease_spec hd.rep hw
    refine ⟨none, _, by rw [Op.run, hrun], .shrink (quiet_release b) hr ?_ (Finset.Subset.refl _)⟩
    rw [add_left_comm, Multiset.singleton_add, ← hb]
  | read p i =>
    obtain ⟨c, d, hc, hcell, hi⟩ := Accessible.cells ha
    have hlt := hi.lt (hd.rep.byref_ok _ d hcell)
    have hw : d.byref.storage[i]? = some d.byref.storage[i] := List.getElem?_eq_getElem hlt
    exact ⟨_, s, by rw [Op.run, readVariable_ok hc hcell hw], .read p i _ ha.1 hc hcell hi hw⟩
  | write p i value =>
    obtain ⟨c, d, hc, hcell, hi⟩ := Accessible.cells ha
    exact ⟨none, _, by rw [Op.run, writeVariable_ok hc hcell], .write p i value ha.1 hc hcell hi⟩
  | endScope v flags =>
    obtain ⟨hv, hflags, c, hc, hst⟩ := ha
    obtain ⟨t, hrun, hr⟩ := scopeExit_spec hd.rep hd.counted hv hc hst hflags
    refine ⟨none, _, by rw [Op.run, hrun],
      .shrink (quiet_endScope v flags) hr ?_ (Finset.erase_subset _ _)⟩
    rw [scopeRefs_erase s.mem hv, add_assoc]
  | leave b =>
    obtain ⟨c, hc, _⟩ := ha
    have hscope : scopeRefs s.mem (s.scope.erase b) = scopeRefs s.mem s.scope := by
      refine Finset.sum_erase _ (scopeRef_of_none (hd.rep.disjoint b c hc))
    refine ⟨none, _, rfl, .shrink (quiet_leave b) (Released.nil s.mem) ?_
      (Finset.erase_subset _ _)⟩
    rw [zero_add, hscope]

/-! ## The discipline is kept -/

theorem ByrefCell.Ok.write (h : d.Ok a) (i : Nat) (value : Word) : (d.write i value).Ok a where
  needsFree := h.needsFree
  notGlobal := h.notGlobal
  stack := h.stack
  heap := h.heap
  byref2 := h.byref2
  helpers h2 hh := by
    have hlen : (d.write i value).byref.storage.length = d.byref.storage.length :=
      List.length_set
    obtain ⟨hkeep, hdestroy⟩ := h.helpers h2 hh
    exact ⟨hlen ▸ hkeep, hlen ▸ hdestroy⟩

/-- The records after an assignment. -/
theorem Mem.write_cases {value : Word} (hd : m.byrefs a = some d) {b : Addr} {d' : ByrefCell}
    (h : (m.setByref a (d.write i value)).byrefs b = some d') :
    ∃ d₀, m.byrefs b = some d₀ ∧ (d' = d₀ ∨ (b = a ∧ d₀ = d ∧ d' = d.write i value)) := by
  by_cases hb : b = a
  · subst hb
    rw [Mem.setByref_byrefs_self, Option.some.injEq] at h
    exact ⟨d, hd, Or.inr ⟨rfl, rfl, h.symm⟩⟩
  · rw [Mem.setByref_byrefs_ne m _ hb] at h
    exact ⟨d', h, Or.inl rfl⟩

theorem Rep.write (hs : Rep m) (hd : m.byrefs a = some d) (i : Nat) (value : Word) :
    Rep (m.setByref a (d.write i value)) := by
  have hsome : ∀ b, m.byrefs b = none → (m.setByref a (d.write i value)).byrefs b = none :=
    fun b hb => Mem.setByref_none _ hd hb
  refine ⟨hs.next_pos, hs.block_null, hsome _ hs.byref_null, hs.block_lt, ?_,
    fun b e he => hsome _ (hs.disjoint b e he), hs.block_ok, ?_, ?_, ?_⟩
  · intro b d' h
    obtain ⟨d₀, hd₀, _⟩ := Mem.write_cases hd h
    exact hs.byref_lt b d₀ hd₀
  · intro b d' h
    obtain ⟨d₀, hd₀, rfl | ⟨rfl, rfl, rfl⟩⟩ := Mem.write_cases hd h
    · exact hs.byref_ok b _ hd₀
    · exact (hs.byref_ok b _ hd₀).write i value
  · intro b d' h
    obtain ⟨d₀, hd₀, rfl | ⟨rfl, rfl, rfl⟩⟩ := Mem.write_cases hd h
    · exact hs.forwarding_lt b _ hd₀
    · exact hs.forwarding_lt b d₀ hd₀
  · intro v v' e e' he he' hst hst' hf
    obtain ⟨d₀, hd₀, h₀⟩ := Mem.write_cases hd he
    obtain ⟨d₁, hd₁, h₁⟩ := Mem.write_cases hd he'
    have hsame : ∀ {b : Addr} {x y : ByrefCell}, (x = y ∨ (b = a ∧ y = d ∧ x = d.write i value)) →
        x.storage = y.storage ∧ x.byref.forwarding = y.byref.forwarding := by
      intro b x y h
      rcases h with rfl | ⟨_, rfl, rfl⟩ <;> exact ⟨rfl, rfl⟩
    rw [(hsame h₀).1] at hst
    rw [(hsame h₁).1] at hst'
    rw [(hsame h₀).2, (hsame h₁).2] at hf
    exact hs.forwarding_inj v v' d₀ d₁ hd₀ hd₁ hst hst' hf

theorem graphOf_write (hd : m.byrefs a = some d) (i : Nat) (value : Word) :
    graphOf (m.setByref a (d.write i value)) = graphOf m := by
  ext1 r
  rw [graphOf_node, graphOf_node]
  cases r with
  | block b => rfl
  | byref b =>
    by_cases hb : b = a
    · subst hb
      have hself := m.setByref_byrefs_self b (d.write i value)
      have hlive : (d.write i value).Live ↔ d.Live := Iff.rfl
      by_cases hl : d.Live
      · by_cases hlt : b < m.next
        · rw [nodeAt_byref hself hlt (hlive.2 hl), nodeAt_byref hd hlt hl]
          rfl
        · simp [nodeAt, hlt]
      · rw [nodeAt_byref_dead hself (mt hlive.1 hl), nodeAt_byref_dead hd hl]
    · exact nodeAt_byref_congr (Mem.setByref_byrefs_ne m _ hb) rfl
  | object o => rfl

theorem scopeRef_write (hd : m.byrefs a = some d) (i : Nat) (value : Word) (v : Addr) :
    scopeRef (m.setByref a (d.write i value)) v = scopeRef m v := by
  by_cases hv : v = a
  · subst hv
    simp only [scopeRef, Mem.setByref_byrefs_self, hd]
    rfl
  · simp only [scopeRef, Mem.setByref_byrefs_ne m _ hv]

theorem Disciplined.write (h : Disciplined m scope w) (hd : m.byrefs a = some d) (i : Nat)
    (value : Word) : Disciplined (m.setByref a (d.write i value)) scope w where
  rep := h.rep.write hd i value
  counted := by
    have hscope : scopeRefs (m.setByref a (d.write i value)) scope = scopeRefs m scope :=
      Finset.sum_congr rfl fun v _ => scopeRef_write hd i value v
    rw [Counted, graphOf_write hd, hscope]
    exact h.counted
  positive := by
    rw [graphOf_write hd]
    exact h.positive
  settled_block := h.settled_block
  settled_byref b d' hb hheap := by
    obtain ⟨d₀, hd₀, rfl | ⟨rfl, rfl, rfl⟩⟩ := Mem.write_cases hd hb
    · exact h.settled_byref b _ hd₀ hheap
    · exact h.settled_byref b d₀ hd₀ hheap

theorem Disciplined.copied {t : Mem} {xs ys : List Capture} {made moved : List Addr} {lost : Nat}
    {e : Multiset Ref} (h : Disciplined m scope w)
    (hc : Copied env m scope none m t xs ys made lost moved e) :
    Disciplined t scope (ownedRefs ys + w) where
  rep := hc.rep
  counted := hc.counted h.counted
  positive := hc.positive h.positive
  settled_block a c hca hheap := by
    cases hs : m.blocks a with
    | none => exact ((hc.frame.block_new a c hs hca).2 (by simp)).2.1
    | some c₀ =>
      obtain ⟨v, hv, hm, _⟩ := hc.frame.persists.block a c₀ hs
      rw [hca, Option.some.injEq] at hv
      subst hv
      exact (BlockCell.live_withFlags hm).2 (h.settled_block a c₀ hs hheap)
  settled_byref a c hca hheap := by
    cases hs : m.byrefs a with
    | none => exact (hc.frame.byref_new a c hs hca).2.1
    | some c₀ =>
      rcases hc.frame.persists.byref a c₀ hs with ⟨v, hv, hm, _⟩ | ⟨hst, _, p, _, hp, _⟩
      · rw [hca, Option.some.injEq] at hv
        subst hv
        exact (ByrefCell.live_withFlags hm).2 (h.settled_byref a c₀ hs hheap)
      · rw [hca, Option.some.injEq] at hp
        rw [hp, ByrefCell.forward_storage, hst] at hheap
        cases hheap

theorem Disciplined.released {t : Mem} {w' held : Multiset Ref} {scope' : Finset Addr}
    (h : Disciplined m scope w) (hr : Released m w' t) (hw : Counted m scope' (w' + held)) :
    Disciplined t scope' held where
  rep := hr.rep h.rep
  counted := hr.counted hw
  positive := by
    obtain ⟨f, hd, _⟩ := hr
    exact hd.positive h.positive
  settled_block a c hc hheap := by
    obtain ⟨f, _, hsh⟩ := hr
    obtain ⟨c₀, v, hc₀, rfl, hm, _⟩ := hsh.block_some hc
    exact (BlockCell.live_withFlags hm).2 (h.settled_block a c₀ hc₀ hheap)
  settled_byref a c hc hheap := by
    obtain ⟨f, _, hsh⟩ := hr
    obtain ⟨c₀, v, hc₀, rfl, hm, _⟩ := hsh.byref_some hc
    exact (ByrefCell.live_withFlags hm).2 (h.settled_byref a c₀ hc₀ hheap)

theorem ownedRefs_block (b : Addr) (w : Multiset Ref) :
    ownedRefs [⟨.block, b⟩] + w = .block b ::ₘ w := by
  simp [ownedRefs, Capture.refs]

/-- An allowed operation keeps the ownership discipline. -/
theorem Disciplined.transition (h : Disciplined s.mem s.scope s.held)
    (ht : Transition env s op res t) : Disciplined t.mem t.scope t.held := by
  cases ht with
  | block c scope _ hok hst hscope =>
    have hnew := h.newBlock hok hst
    rcases hscope with rfl | rfl
    · exact hnew
    · exact hnew.insertScope (scopeRef_of_none h.rep.byref_next)
  | declare r hr => exact h.variable hr
  | grow _ hc =>
    have hcopied := h.copied hc
    rw [ownedRefs_block] at hcopied
    exact hcopied
  | @shrink _ _ _ w held scope hr hw _ =>
    refine h.released hr ?_
    have hcounted := h.counted
    rw [Counted, hw, add_left_comm] at hcounted
    exact hcounted
  | read => exact h
  | write p i value _ _ hd _ => exact h.write hd i value

/-! ## Runs -/

/-- The two steps of a run: the operation returns, and it is a transition. -/
theorem Run.induct {P : List Access → Client → Prop} {accesses : List Access}
    (hmalloc : ∀ k, env.mallocOk k = true) (hs : Disciplined s.mem s.scope s.held)
    (h0 : P [] s)
    (hstep : ∀ accesses t op res u, Disciplined t.mem t.scope t.held → P accesses t →
      Transition env t op res u → P (op.accesses t.mem res ++ accesses) u)
    (h : Run env s accesses t) : Disciplined t.mem t.scope t.held ∧ P accesses t := by
  induction h with
  | nil => exact ⟨hs, h0⟩
  | step _ ha hr ih =>
    obtain ⟨hd, hP⟩ := ih
    obtain ⟨res', u', hr', ht⟩ := Op.run_spec hd hmalloc ha
    rw [hr, Except.ok.injEq, Prod.mk.injEq] at hr'
    obtain ⟨rfl, rfl⟩ := hr'
    exact ⟨hd.transition ht, hstep _ _ _ _ _ hd hP ht⟩

/-- The ownership discipline holds at every point of a run. -/
theorem Run.disciplined {accesses : List Access} (hmalloc : ∀ k, env.mallocOk k = true)
    (h : Run env .start accesses t) : Disciplined t.mem t.scope t.held :=
  (Run.induct (P := fun _ _ => True) hmalloc disciplined_empty trivial
    (fun _ _ _ _ _ _ _ _ => trivial) h).1

end

/-! ## A small run -/

def nestedClient : Client := ⟨nested, {3, 2, 1}, 0⟩

theorem nested_run : Run plentiful .start [.declare 1 [10]] nestedClient := by
  have hcounter :
      Run plentiful .start [.declare 1 [10]] ⟨Mem.empty.newByref counterRecord, {1}, 0⟩ :=
    Run.nil.step (show Op.Allowed .start (.declare counterRecord) from counterRecord_ok) rfl
  have hinner := hcounter.step
    (show Op.Allowed _ (.literal innerLiteral) from
      ⟨rfl, by decide, by decide, by decide, by decide, by decide⟩) rfl
  exact hinner.step
    (show Op.Allowed _ (.literal outerLiteral) from
      ⟨rfl, by decide, by decide, by decide, by decide, by decide⟩) rfl

/-- The state after an operation that returns. -/
def Op.after (env : Env) (op : Op) (s : Client) : Client :=
  match op.run env s with
  | .ok (_, t) => t
  | .error _ => s

/-- The outer block is copied. -/
def copiedClient : Client := (Op.copy 3).after plentiful nestedClient

theorem copied_run : Run plentiful .start [.declare 1 [10]] copiedClient :=
  nested_run.step (show Op.Allowed nestedClient (.copy 3) from nested_alive)
    (show (Op.copy 3).run plentiful nestedClient = .ok (none, copiedClient) from rfl)

theorem copiedClient_held : copiedClient.held = {.block 4} := rfl

end BlocksRuntime
