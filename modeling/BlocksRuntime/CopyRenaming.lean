import BlocksRuntime.AllocationFailure
import BlocksRuntime.Ownership.Renaming
import Mathlib.Data.List.FinRange

/-!
# Copies up to renaming

Two complete copies of the same live blocks, made in different orders, compared
record by record.

* `Capture.rename` and its companions rename the addresses in a record.
* `CopiedTogether` is what is left of `Copied` when the order is forgotten, and
  `CopiedTogether.perm` rearranges it.
* `CopyOf.matched` pairs the blocks that two copies of the same captured
  variables made.
* `Corresponds` is the renaming that comes out of these pairs and of the
  variables that moved.
-/

namespace BlocksRuntime

open Ownership

/-! ## Renaming addresses -/

def Capture.rename (ρ : Addr → Addr) (x : Capture) : Capture :=
  if x.kind = .plain ∨ x.kind = .object then x else { x with value := ρ x.value }

def BlockCell.rename (ρ : Addr → Addr) (c : BlockCell) : BlockCell :=
  { c with layout := { c.layout with captured := c.layout.captured.map (Capture.rename ρ) } }

def ByrefCell.rename (ρ : Addr → Addr) (c : ByrefCell) : ByrefCell :=
  c.forward (ρ c.byref.forwarding)

def Ref.rename (ρ : Addr → Addr) : Ref → Ref
  | .block a => .block (ρ a)
  | .byref a => .byref (ρ a)
  | .object o => .object o

/-- Renaming addresses permutes the references. -/
def renameRefs (ρ : Equiv.Perm Addr) : Equiv.Perm Ref where
  toFun := Ref.rename ρ
  invFun := Ref.rename ρ.symm
  left_inv r := by cases r <;> simp [Ref.rename]
  right_inv r := by cases r <;> simp [Ref.rename]

@[simp] theorem renameRefs_block (ρ : Equiv.Perm Addr) (a : Addr) :
    renameRefs ρ (.block a) = .block (ρ a) := rfl

@[simp] theorem renameRefs_byref (ρ : Equiv.Perm Addr) (a : Addr) :
    renameRefs ρ (.byref a) = .byref (ρ a) := rfl

@[simp] theorem renameRefs_object (ρ : Equiv.Perm Addr) (o : Addr) :
    renameRefs ρ (.object o) = .object o := rfl

theorem refs_rename (ρ : Equiv.Perm Addr) (x : Capture) :
    (x.rename ρ).refs = x.refs.map (renameRefs ρ) := by
  obtain ⟨kind, value⟩ := x
  cases kind <;> simp [Capture.rename, Capture.refs]

theorem ownedRefs_rename (ρ : Equiv.Perm Addr) (xs : List Capture) :
    ownedRefs (xs.map (Capture.rename ρ)) = (ownedRefs xs).map (renameRefs ρ) := by
  induction xs with
  | nil => rfl
  | cons x xs ih => rw [List.map_cons, ownedRefs, ownedRefs, ih, refs_rename, Multiset.map_add]

theorem ownedRefs_perm {xs ys : List Capture} (h : xs.Perm ys) : ownedRefs xs = ownedRefs ys := by
  induction h with
  | nil => rfl
  | cons x _ ih => rw [ownedRefs, ownedRefs, ih]
  | swap x y xs => simp only [ownedRefs, add_left_comm]
  | trans _ _ ih ih' => rw [ih, ih']

section

variable {env : Env} {s₀ s t t' : Mem} {scope : Finset Addr} {X : Multiset Ref}
  {xs ys xs' ys' : List Capture} {made made' moved moved' : List Addr} {lost : Nat}
  {e e' : Multiset Ref}

/-! ## Several copies -/

/-- One `_Block_copy` for each block of a list of live blocks. -/
theorem mapM_blockCopy_ok (hs₀ : Rep s₀) (hmalloc : ∀ k, env.mallocOk k = true) (bs : List Addr)
    (hbs : ∀ b ∈ bs, Alive s₀ scope b) : ∀ {s : Mem} {X : Multiset Ref}, Ready env s₀ scope s X →
      ∃ cs t made moved e, bs.mapM (blockCopy env) s = .ok (cs, t) ∧
        Copied env s₀ scope none s t (bs.map (Capture.mk .block)) (cs.map (Capture.mk .block))
          made 0 moved e := by
  induction bs with
  | nil =>
    intro s X h
    exact ⟨[], s, [], [], 0, rfl, copied_plain h.rep (by simp)⟩
  | cons b bs ih =>
    intro s X h
    have hb := hbs b List.mem_cons_self
    obtain ⟨c₀, hc₀⟩ := hb.cell
    have hlt : Nat.succ b ≤ s.next := (hs₀.block_lt b c₀ hc₀).trans_le h.persists.next_le
    have hfuel : Nat.succ b ≤ copyFuel s :=
      hlt.trans ((Nat.le_add_right _ 2).trans (Nat.le_mul_of_pos_left _ (Nat.succ_pos _)))
    rcases copiesBlock_of_alive hs₀ hb (copyFuel s) hfuel s X ⟨.block, b⟩ h rfl rfl with
      ⟨_, k, _, hfail⟩ | ⟨c, t, hrun, made, lost, moved, e, hc⟩
    · rw [hmalloc] at hfail
      cases hfail
    · obtain rfl : lost = 0 := hc.calls.2 fun k _ _ => hmalloc k
      obtain ⟨cs, u, made', moved', e', hrest, hcs⟩ :=
        ih (fun a ha => hbs a (List.mem_cons_of_mem b ha)) (h.next hc)
      refine ⟨c :: cs, u, made ++ made', moved ++ moved', e + e', ?_, hc.trans hcs⟩
      have hfirst : blockCopy env b s = .ok (c, t) := hrun
      rw [List.mapM_cons, bind_ok hfirst, bind_ok hrest]
      rfl

/-- What a complete copy of `xs` did, whatever the order. -/
structure CopiedTogether (env : Env) (scope : Finset Addr) (s t : Mem) (xs ys : List Capture)
    (made moved : List Addr) (e : Multiset Ref) : Prop where
  rep : Rep t
  frame : Extends env none s t e
  grows : Grows latched (External s) (graphOf s) (scopeRefs s scope) (graphOf t)
    (ownedRefs ys + scopeRefs t scope) e
  copy : CopyOf s t xs ys made 0
  made_nodup : made.Nodup
  made_ge : ∀ a ∈ made, s.next ≤ a
  made_all : ∀ a c, s.blocks a = none → t.blocks a = some c → a ∈ made
  moved_nodup : moved.Nodup
  moved_iff : ∀ v, v ∈ moved ↔ Moves s t v
  moved_reached : ∀ v ∈ moved, Reaches s xs v
  mallocs : t.mallocs = s.mallocs + made.length + moved.length

theorem Copied.together (h : Copied env s scope none s t xs ys made 0 moved e) :
    CopiedTogether env scope s t xs ys made moved e where
  rep := h.rep
  frame := h.frame
  grows := h.grows
  copy := h.copy
  made_nodup := h.made_lt.imp Nat.ne_of_lt
  made_ge a ha := (h.made_range a ha).1
  made_all a c hs ht := h.made_all a c hs ht (by simp)
  moved_nodup := h.moved_nodup
  moved_iff := h.moved_iff
  moved_reached := h.moved_reached
  mallocs := h.mallocs

/-- The first variable is copied on its own. -/
theorem CopyOf.uncons {x : Capture} (h : CopyOf s t (x :: xs) ys made lost) :
    ∃ y ys₁ m₁ m₂ l₁ l₂, ys = y :: ys₁ ∧ CopyOf s t [x] [y] m₁ l₁ ∧ CopyOf s t xs ys₁ m₂ l₂ ∧
      made = m₁ ++ m₂ ∧ lost = l₁ + l₂ := by
  cases h with
  | plain _ hx h => exact ⟨_, _, [], _, 0, _, rfl, .plain x hx .nil, h, rfl, by omega⟩
  | byref _ hx hc hd hheap h =>
    exact ⟨_, _, [], _, 0, _, rfl, .byref x hx hc hd hheap .nil, h, rfl, by omega⟩
  | shared _ hx hs h => exact ⟨_, _, [], _, 0, _, rfl, .shared x hx hs .nil, h, rfl, by omega⟩
  | @fresh _ _ _ _ m₁ m₂ l₁ l₂ _ r _ hx hc hs hr hw hz h =>
    refine ⟨_, _, r :: m₁, m₂, l₁, l₂, rfl, ?_, h, rfl, rfl⟩
    simpa using CopyOf.fresh x hx hc hs hr hw hz .nil
  | @failed _ _ _ _ l _ hx hc hs h =>
    exact ⟨_, _, [], _, 1, l, rfl, .failed x hx hc hs .nil, h, rfl, by omega⟩

/-- Copies side by side can be rearranged. -/
theorem CopyOf.perm {ps qs : List (Capture × Capture)} (hp : ps.Perm qs) : ∀ {made lost},
    CopyOf s t (ps.map Prod.fst) (ps.map Prod.snd) made lost →
      ∃ made', CopyOf s t (qs.map Prod.fst) (qs.map Prod.snd) made' lost ∧ made'.Perm made := by
  induction hp with
  | nil => exact fun h => ⟨_, h, .refl _⟩
  | cons p _ ih =>
    intro made lost h
    obtain ⟨y, ys₁, m₁, m₂, l₁, l₂, hys, hfirst, hrest, rfl, rfl⟩ := h.uncons
    obtain ⟨rfl, rfl⟩ := List.cons.inj hys
    obtain ⟨m₂', hrest', hm⟩ := ih hrest
    exact ⟨m₁ ++ m₂', hfirst.append hrest', hm.append_left m₁⟩
  | swap p q ps =>
    intro made lost h
    obtain ⟨y, ys₁, m₁, m, l₁, l, hys, hfirst, h, rfl, rfl⟩ := h.uncons
    obtain ⟨rfl, rfl⟩ := List.cons.inj hys
    obtain ⟨z, ys₂, m₂, m₃, l₂, l₃, hzs, hsecond, hrest, rfl, rfl⟩ := h.uncons
    obtain ⟨rfl, rfl⟩ := List.cons.inj hzs
    refine ⟨m₂ ++ (m₁ ++ m₃), ?_, ?_⟩
    · rw [add_left_comm]
      exact hsecond.append (hfirst.append hrest)
    · rw [← List.append_assoc, ← List.append_assoc]
      exact List.perm_append_comm.append_right m₃
  | trans _ _ ih ih' =>
    intro made lost h
    obtain ⟨made₁, h₁, hm₁⟩ := ih h
    obtain ⟨made₂, h₂, hm₂⟩ := ih' h₁
    exact ⟨made₂, h₂, hm₂.trans hm₁⟩

/-- The order in which the variables are listed does not matter. -/
theorem CopiedTogether.perm {ps qs : List (Capture × Capture)} (hp : ps.Perm qs)
    (h : CopiedTogether env scope s t (ps.map Prod.fst) (ps.map Prod.snd) made moved e) :
    ∃ made', CopiedTogether env scope s t (qs.map Prod.fst) (qs.map Prod.snd) made' moved e := by
  obtain ⟨made', hcopy, hm⟩ := CopyOf.perm hp h.copy
  have howned := ownedRefs_perm (hp.map Prod.snd)
  exact ⟨made', {
    rep := h.rep
    frame := h.frame
    grows := howned ▸ h.grows
    copy := hcopy
    made_nodup := hm.nodup_iff.2 h.made_nodup
    made_ge := fun a ha => h.made_ge a (hm.mem_iff.1 ha)
    made_all := fun a c hs ht => hm.mem_iff.2 (h.made_all a c hs ht)
    moved_nodup := h.moved_nodup
    moved_iff := h.moved_iff
    moved_reached := fun v hv =>
      (h.moved_reached v hv).mono fun x hx => (hp.map Prod.fst).mem_iff.1 hx
    mallocs := by rw [h.mallocs, hm.length_eq] }⟩

/-! ## Two copies of the same variables -/

/-- What corresponds in two copies of one captured variable.  `ps` are pairs of
blocks that correspond. -/
inductive Link (s t t' : Mem) (ps : List (Addr × Addr)) : Capture → Capture → Prop where
  | plain (x : Capture) (hx : x.kind = .plain ∨ x.kind = .object) : Link s t t' ps x x
  | shared (x : Capture) (hx : x.kind = .block) (hlt : x.value < s.next) : Link s t t' ps x x
  | byref (x : Capture) (hx : x.kind.isByref) (hv : s.byrefs x.value ≠ none) :
      Link s t t' ps { x with value := follow t x.value } { x with value := follow t' x.value }
  | fresh (x : Capture) (r r' : Addr) (hx : x.kind = .block) (h : (r, r') ∈ ps) :
      Link s t t' ps { x with value := r } { x with value := r' }

/-- Two copies of one stack block. -/
def Twins (s t t' : Mem) (ps : List (Addr × Addr)) (r r' : Addr) : Prop :=
  ∃ c zs zs' w w', t.blocks r = some ((heapBlock c zs).withFlags w) ∧
    t'.blocks r' = some ((heapBlock c zs').withFlags w') ∧ SameMeta w (heapBlockFlags c.flags) ∧
    SameMeta w' (heapBlockFlags c.flags) ∧ List.Forall₂ (Link s t t' ps) zs zs'

theorem Link.mono {ps qs : List (Addr × Addr)} {x y : Capture} (h : Link s t t' ps x y)
    (hsub : ps ⊆ qs) : Link s t t' qs x y := by
  cases h with
  | plain _ hx => exact .plain x hx
  | shared _ hx hlt => exact .shared x hx hlt
  | byref x hx hv => exact .byref x hx hv
  | fresh x r r' hx h => exact .fresh x r r' hx (hsub h)

theorem Twins.mono {ps qs : List (Addr × Addr)} {r r' : Addr} (h : Twins s t t' ps r r')
    (hsub : ps ⊆ qs) : Twins s t t' qs r r' := by
  obtain ⟨c, zs, zs', w, w', hr, hr', hw, hw', hzs⟩ := h
  exact ⟨c, zs, zs', w, w', hr, hr', hw, hw', hzs.imp fun _ _ hl => hl.mono hsub⟩

/-- Captured variables of which all blocks and variables are live. -/
structure AliveCaptures (s : Mem) (scope : Finset Addr) (xs : List Capture) : Prop where
  block : ∀ x ∈ xs, x.kind = .block → AliveOrNull s scope x.value
  byref : ∀ x ∈ xs, x.kind.isByref → AliveByref s scope x.value

theorem AliveCaptures.tail {x : Capture} (h : AliveCaptures s scope (x :: xs)) :
    AliveCaptures s scope xs :=
  ⟨fun y hy => h.block y (List.mem_cons_of_mem x hy),
    fun y hy => h.byref y (List.mem_cons_of_mem x hy)⟩

theorem AliveCaptures.nested {x : Capture} {c : BlockCell} (h : AliveCaptures s scope xs)
    (hd : Disciplined s scope X) (hx : x ∈ xs) (hk : x.kind = .block)
    (hc : s.blocks x.value = some c) : AliveCaptures s scope c.layout.captured := by
  have halive : Alive s scope x.value :=
    (h.block x hx hk).resolve_left (hd.rep.ne_null hc)
  exact ⟨fun y hy => halive.capturedBlock hd.rep hd.counted hc hy,
    fun y hy => halive.capturedByref hd.rep hd.counted hc hy⟩

/-- The copy of a variable that makes no block. -/
theorem CopyOf.quiet_cases {x y : Capture} (h : CopyOf s t [x] [y] made lost)
    (hk : x.kind ≠ .block) : made = [] ∧
      ((x.kind = .plain ∨ x.kind = .object) ∧ y = x ∨
        x.kind.isByref ∧ y = { x with value := follow t x.value }) := by
  cases h with
  | plain _ hx h =>
    cases h
    exact ⟨rfl, Or.inl ⟨hx, rfl⟩⟩
  | byref _ hx hc hd hheap h =>
    cases h
    exact ⟨rfl, Or.inr ⟨hx, by rw [follow_of hc]⟩⟩
  | shared _ hx => exact absurd hx hk
  | fresh _ hx => exact absurd hx hk
  | failed _ hx => exact absurd hx hk

/-- Two copies of the same variables: what they became, and the blocks that
they made, correspond. -/
def Matched (s t t' : Mem) (ys ys' : List Capture) (made made' : List Addr) : Prop :=
  ∃ ps : List (Addr × Addr), ps.map Prod.fst = made ∧ ps.map Prod.snd = made' ∧
    List.Forall₂ (Link s t t' ps) ys ys' ∧ ∀ p ∈ ps, Twins s t t' ps p.1 p.2

theorem Matched.append (h : Matched s t t' ys ys' made made') {zs zs' : List Capture}
    {m m' : List Addr} (h' : Matched s t t' zs zs' m m') :
    Matched s t t' (ys ++ zs) (ys' ++ zs') (made ++ m) (made' ++ m') := by
  obtain ⟨ps, rfl, rfl, hlink, htwins⟩ := h
  obtain ⟨qs, rfl, rfl, hlink', htwins'⟩ := h'
  have hleft : ps ⊆ ps ++ qs := List.subset_append_left ps qs
  have hright : qs ⊆ ps ++ qs := List.subset_append_right ps qs
  refine ⟨ps ++ qs, List.map_append, List.map_append, ?_, fun p hp => ?_⟩
  · exact List.rel_append (hlink.imp fun _ _ h => h.mono hleft)
      (hlink'.imp fun _ _ h => h.mono hright)
  · rcases List.mem_append.1 hp with hp | hp
    · exact (htwins p hp).mono hleft
    · exact (htwins' p hp).mono hright

/-- A variable that makes no block. -/
theorem Matched.quiet {x y y' : Capture} {lost' : Nat} (h : CopyOf s t [x] [y] made lost)
    (h' : CopyOf s t' [x] [y'] made' lost') (hk : x.kind ≠ .block)
    (hv : x.kind.isByref → s.byrefs x.value ≠ none) : Matched s t t' [y] [y'] made made' := by
  obtain ⟨rfl, hy⟩ := h.quiet_cases hk
  obtain ⟨rfl, hy'⟩ := h'.quiet_cases hk
  refine ⟨[], rfl, rfl, .cons ?_ .nil, by simp⟩
  rcases hy with ⟨hx, rfl⟩ | ⟨hx, rfl⟩
  · rcases hy' with ⟨_, rfl⟩ | ⟨hx', _⟩
    · exact .plain _ hx
    · rcases hx with hx | hx <;> rcases hx' with hx' | hx' <;> rw [hx] at hx' <;> cases hx'
  · rcases hy' with ⟨hx', _⟩ | ⟨_, rfl⟩
    · rcases hx with hx | hx <;> rcases hx' with hx' | hx' <;> rw [hx] at hx' <;> cases hx'
    · exact .byref x hx (hv hx)

/-- `NULL`, a global block or a heap block. -/
theorem Matched.shared {x y' : Capture} (h' : CopyOf s t' [x] [y'] made' 0) (hk : x.kind = .block)
    (hlt : x.value < s.next) (hs : ∀ c, s.blocks x.value = some c → c.storage ≠ .stack) :
    Matched s t t' [x] [y'] [] made' := by
  rcases h'.block_cases hk with ⟨rfl, rfl, _⟩ | ⟨c, _, _, _, hc, hst, _⟩ | ⟨_, hl, _⟩
  · exact ⟨[], rfl, rfl, .cons (.shared _ hk hlt) .nil, by simp⟩
  · exact absurd hst (hs c hc)
  · exact absurd hl (Nat.lt_irrefl 0)

/-- A stack block, given that its captured variables match. -/
theorem Matched.fresh {x y' : Capture} {c : BlockCell} {r : Addr} {w : Flags} {zs : List Capture}
    (h' : CopyOf s t' [x] [y'] made' 0) (hk : x.kind = .block) (hc : s.blocks x.value = some c)
    (hst : c.storage = .stack) (hr : t.blocks r = some ((heapBlock c.layout zs).withFlags w))
    (hw : SameMeta w (heapBlockFlags c.layout.flags))
    (hz : ∀ {zs' m'}, CopyOf s t' c.layout.captured zs' m' 0 → Matched s t t' zs zs' made m') :
    Matched s t t' [{ x with value := r }] [y'] (r :: made) made' := by
  rcases h'.block_cases hk with ⟨_, _, _, hs⟩ |
    ⟨c', zs', w', m', hc', _, hky, hr', hw', hz', rfl⟩ | ⟨_, hl, _⟩
  · exact absurd hst (hs c hc)
  · rw [hc, Option.some.injEq] at hc'
    subst hc'
    obtain ⟨ps, rfl, rfl, hlink, htwins⟩ := hz hz'
    have hsub : ps ⊆ (r, y'.value) :: ps := List.subset_cons_self _ ps
    have hy' : y' = { x with value := y'.value } := by
      rw [hk, ← hky]
    refine ⟨(r, y'.value) :: ps, rfl, rfl, .cons ?_ .nil, fun p hp => ?_⟩
    · rw [hy']
      exact .fresh x r y'.value hk List.mem_cons_self
    · rcases List.mem_cons.1 hp with rfl | hp
      · exact ⟨c.layout, zs, zs', w, w', hr, hr', hw, hw', hlink.imp fun _ _ h => h.mono hsub⟩
      · exact (htwins p hp).mono hsub
  · exact absurd hl (Nat.lt_irrefl 0)

/-- `NULL` and the blocks that were there have old addresses. -/
theorem AliveOrNull.lt_next {b : Addr} (h : AliveOrNull s scope b) (hs : Rep s) : b < s.next := by
  rcases h with rfl | h
  · exact hs.next_pos
  · obtain ⟨c, hc⟩ := h.cell
    exact hs.block_lt b c hc

theorem AliveByref.ne_none {v : Addr} (h : AliveByref s scope v) : s.byrefs v ≠ none := by
  obtain ⟨c, hc, _⟩ := h
  simp [hc]

/-- Two complete copies of the same live variables match. -/
theorem CopyOf.matched (hd : Disciplined s scope X) (h : CopyOf s t xs ys made lost) :
    lost = 0 → AliveCaptures s scope xs → ∀ {ys' made'}, CopyOf s t' xs ys' made' 0 →
      Matched s t t' ys ys' made made' := by
  induction h with
  | nil =>
    intro _ _ ys' made' h'
    cases h'
    exact ⟨[], rfl, rfl, .nil, by simp⟩
  | plain x hx _ ih =>
    intro hl halive ys' made' h'
    obtain ⟨y', ys₁, m₁, m₂, l₁, l₂, rfl, hfirst, hrest, rfl, hsum⟩ := h'.uncons
    obtain ⟨rfl, rfl⟩ : l₁ = 0 ∧ l₂ = 0 := by omega
    have hk : x.kind ≠ .block := fun hk => by
      rcases hx with hx | hx <;> rw [hx] at hk <;> cases hk
    exact (Matched.quiet (.plain x hx .nil) hfirst hk fun hv =>
      (halive.byref x List.mem_cons_self hv).ne_none).append (ih hl halive.tail hrest)
  | byref x hx hc hd hheap _ ih =>
    intro hl halive ys' made' h'
    obtain ⟨y', ys₁, m₁, m₂, l₁, l₂, rfl, hfirst, hrest, rfl, hsum⟩ := h'.uncons
    obtain ⟨rfl, rfl⟩ : l₁ = 0 ∧ l₂ = 0 := by omega
    have hk : x.kind ≠ .block := fun hk => by
      rcases hx with hx | hx <;> rw [hx] at hk <;> cases hk
    exact (Matched.quiet (.byref x hx hc hd hheap .nil) hfirst hk fun hv =>
      (halive.byref x List.mem_cons_self hv).ne_none).append (ih hl halive.tail hrest)
  | shared x hx hs _ ih =>
    intro hl halive ys' made' h'
    obtain ⟨y', ys₁, m₁, m₂, l₁, l₂, rfl, hfirst, hrest, rfl, hsum⟩ := h'.uncons
    obtain ⟨rfl, rfl⟩ : l₁ = 0 ∧ l₂ = 0 := by omega
    have hlt := (halive.block x List.mem_cons_self hx).lt_next hd.rep
    exact (Matched.shared hfirst hx hlt hs).append (ih hl halive.tail hrest)
  | fresh x hx hc hst hr hw _ _ ihz ih =>
    intro hl halive ys' made' h'
    obtain ⟨y', ys₁, m₁, m₂, l₁, l₂, rfl, hfirst, hrest, rfl, hsum⟩ := h'.uncons
    obtain ⟨rfl, rfl⟩ : l₁ = 0 ∧ l₂ = 0 := by omega
    have hnested := halive.nested hd List.mem_cons_self hx hc
    have hone := Matched.fresh (t := t) hfirst hx hc hst hr hw (ihz (by omega) hnested)
    exact hone.append (ih (by omega) halive.tail hrest)
  | failed x hx hc hst _ _ => exact fun hl => absurd hl (Nat.succ_ne_zero _)

/-! ## The variables that move -/

/-- Where a variable that moves has gone. -/
theorem Moves.follow_spec {v : Addr} (h : Moves s t v) (hp : Persists env s t) :
    s.next ≤ follow t v ∧ ∃ c, s.byrefs v = some c ∧ c.storage = .stack ∧
      t.byrefs v = some (c.forward (follow t v)) ∧ HeapCopyAt env t c (follow t v) := by
  obtain ⟨c, hc, hst, hf, p, hpv, ht⟩ := h
  rcases hp.byref_stack hc hst with hstay | ⟨_, q, hq, hmove, hcopy⟩
  · rw [ht, Option.some.injEq] at hstay
    rw [← hstay] at hf
    exact absurd hf hpv
  · obtain rfl : follow t v = q := by rw [follow_of hmove]; rfl
    exact ⟨hq, c, hc, hst, hmove, hcopy⟩

/-- A record that does not move keeps all but its count. -/
theorem Persists.stays (hp : Persists env s t) (hs : Rep s) {v : Addr} {c : ByrefCell}
    (hc : s.byrefs v = some c) (h : ¬Moves s t v) : ∃ w, t.byrefs v = some (c.withFlags w) ∧
      SameMeta w c.byref.flags ∧ (¬c.Live → w = c.byref.flags) := by
  rcases hp.byref v c hc with hstay | ⟨hst, hf, p, hnew, hmove, _⟩
  · exact hstay
  · exact absurd ⟨c, hc, hst, hf, p, ((hs.byref_lt v c hc).trans_le hnew).ne', hmove⟩ h

/-- The same variables move in both copies. -/
theorem CopiedTogether.moves_iff (hd : Disciplined s scope X)
    (h : CopiedTogether env scope s t xs ys made moved e)
    (h' : CopiedTogether env scope s t' xs ys' made' moved' e') (v : Addr) :
    v ∈ moved' ↔ v ∈ moved := by
  have hunmoved : ∀ {u : Mem}, Moves s u v → unmoved s v = true := fun hm => by
    obtain ⟨c, hc, hst, hf, _⟩ := hm
    exact unmoved_iff.2 ⟨c, hc, hst, hf⟩
  refine ⟨fun hv => ?_, fun hv => ?_⟩
  · exact (h.moved_iff v).2 ((h'.moved_reached v hv).moves hd.rep h.frame.persists
      (hunmoved ((h'.moved_iff v).1 hv)) _ _ h.copy)
  · exact (h'.moved_iff v).2 ((h.moved_reached v hv).moves hd.rep h'.frame.persists
      (hunmoved ((h.moved_iff v).1 hv)) _ _ h'.copy)

theorem CopyOf.made_block (h : CopyOf s t xs ys made lost) {a : Addr} (ha : a ∈ made) :
    ∃ c, t.blocks a = some c := by
  induction h with
  | nil => cases ha
  | plain _ _ _ ih => exact ih ha
  | byref _ _ _ _ _ _ ih => exact ih ha
  | shared _ _ _ _ ih => exact ih ha
  | fresh _ _ _ _ hr _ _ _ ihz ih =>
    rcases List.mem_append.1 ha with ha | ha
    · rcases List.mem_cons.1 ha with rfl | ha
      · exact ⟨_, hr⟩
      · exact ihz ha
    · exact ih ha
  | failed _ _ _ _ _ ih => exact ih ha

/-- The records that a copy made have different addresses. -/
theorem CopiedTogether.fresh_nodup (h : CopiedTogether env scope s t xs ys made moved e) :
    (made ++ moved.map (follow t)).Nodup := by
  refine List.nodup_append.2 ⟨h.made_nodup, ?_, fun a ha b hb hab => ?_⟩
  · refine (List.nodup_map_iff_inj_on h.moved_nodup).2 fun u hu v hv he => ?_
    obtain ⟨_, c, _, hcst, hc, _⟩ := ((h.moved_iff u).1 hu).follow_spec h.frame.persists
    obtain ⟨_, d, _, hdst, hd, _⟩ := ((h.moved_iff v).1 hv).follow_spec h.frame.persists
    exact h.rep.forwarding_inj u v _ _ hc hd hcst hdst he
  · subst hab
    obtain ⟨v, hv, rfl⟩ := List.mem_map.1 hb
    obtain ⟨_, c, _, _, _, w, hcopy, _⟩ := ((h.moved_iff v).1 hv).follow_spec h.frame.persists
    obtain ⟨d, hd⟩ : ∃ d, t.blocks (follow t v) = some d := h.copy.made_block ha
    rw [h.rep.disjoint _ d hd] at hcopy
    cases hcopy

theorem CopiedTogether.fresh_ge (h : CopiedTogether env scope s t xs ys made moved e) {a : Addr}
    (ha : a ∈ made ++ moved.map (follow t)) : s.next ≤ a := by
  rcases List.mem_append.1 ha with ha | ha
  · exact h.made_ge a ha
  · obtain ⟨v, hv, rfl⟩ := List.mem_map.1 ha
    exact (((h.moved_iff v).1 hv).follow_spec h.frame.persists).1

/-! ## The renaming -/

/-- The renaming `ρ` takes one copy to the other. -/
structure Corresponds (s t t' : Mem) (ys ys' : List Capture) (made made' : List Addr)
    (ρ : Equiv.Perm Addr) : Prop where
  old : ∀ a, a < s.next → ρ a = a
  results : ys' = ys.map (Capture.rename ρ)
  made_eq : made' = made.map ρ
  block : ∀ a ∈ made, ∃ c zs w w', t.blocks a = some ((heapBlock c zs).withFlags w) ∧
    t'.blocks (ρ a) = some ((heapBlock c (zs.map (Capture.rename ρ))).withFlags w') ∧
    SameMeta w w'
  byref : ∀ v, s.byrefs v ≠ none → ρ (follow t v) = follow t' v

theorem Link.rename {ps : List (Addr × Addr)} {x y : Capture} {ρ : Equiv.Perm Addr}
    (h : Link s t t' ps x y) (hold : ∀ a, a < s.next → ρ a = a) (hps : ∀ p ∈ ps, ρ p.1 = p.2)
    (hbyref : ∀ v, s.byrefs v ≠ none → ρ (follow t v) = follow t' v) :
    x.rename ρ = y := by
  cases h with
  | plain _ hx => exact if_pos hx
  | shared _ hx hlt =>
    have hk : ¬(x.kind = .plain ∨ x.kind = .object) := by simp [hx]
    rw [Capture.rename, if_neg hk, hold _ hlt]
  | byref x hx hv =>
    have hk : ¬(x.kind = .plain ∨ x.kind = .object) := by
      rcases hx with hx | hx <;> simp [hx]
    rw [Capture.rename, if_neg hk, hbyref _ hv]
  | fresh x r r' hx h =>
    have hk : ¬(x.kind = .plain ∨ x.kind = .object) := by simp [hx]
    rw [Capture.rename, if_neg hk, hps _ h]

theorem map_rename_of_links {ps : List (Addr × Addr)} {ρ : Equiv.Perm Addr}
    (h : List.Forall₂ (Link s t t' ps) xs ys) (hold : ∀ a, a < s.next → ρ a = a)
    (hps : ∀ p ∈ ps, ρ p.1 = p.2)
    (hbyref : ∀ v, s.byrefs v ≠ none → ρ (follow t v) = follow t' v) :
    ys = xs.map (Capture.rename ρ) := by
  induction h with
  | nil => rfl
  | cons hxy _ ih => rw [List.map_cons, hxy.rename hold hps hbyref, ← ih]

/-- Two complete copies of the same live variables correspond. -/
theorem CopiedTogether.exists_corresponds (hd : Disciplined s scope X)
    (halive : AliveCaptures s scope xs) (h : CopiedTogether env scope s t xs ys made moved e)
    (h' : CopiedTogether env scope s t' xs ys' made' moved' e') :
    ∃ ρ, Corresponds s t t' ys ys' made made' ρ := by
  obtain ⟨ps, rfl, rfl, hlink, htwins⟩ := h.copy.matched hd rfl halive h'.copy
  have hmoved : moved'.Perm moved :=
    (List.perm_ext_iff_of_nodup h'.moved_nodup h.moved_nodup).2 (h.moves_iff hd h')
  -- The blocks that were made, and the heap copies of the variables that moved.
  let qs := ps ++ moved.map fun v => (follow t v, follow t' v)
  have hfst : qs.map Prod.fst = ps.map Prod.fst ++ moved.map (follow t) := by
    simp [qs, Function.comp_def]
  have hsnd : qs.map Prod.snd = ps.map Prod.snd ++ moved.map (follow t') := by
    simp [qs, Function.comp_def]
  have hnodup : (qs.map Prod.snd).Nodup := by
    rw [hsnd]
    exact ((hmoved.map (follow t')).append_left _).nodup_iff.1 h'.fresh_nodup
  obtain ⟨ρ, hpairs, hfix⟩ := exists_perm_of_pairs qs (hfst ▸ h.fresh_nodup) hnodup
  have hps : ∀ p ∈ ps, ρ p.1 = p.2 := fun p hp => hpairs p (List.mem_append_left _ hp)
  have hold : ∀ a, a < s.next → ρ a = a := by
    intro a ha
    refine hfix a ?_ ?_
    · rw [hfst]
      exact fun hmem => (h.fresh_ge hmem).not_gt ha
    · rw [hsnd]
      refine fun hmem => (h'.fresh_ge ?_).not_gt ha
      exact ((hmoved.map (follow t')).append_left _).mem_iff.2 hmem
  have hbyref : ∀ v, s.byrefs v ≠ none → ρ (follow t v) = follow t' v := by
    intro v hv
    by_cases hm : v ∈ moved
    · exact hpairs (follow t v, follow t' v) (List.mem_append_right _ (List.mem_map_of_mem hm))
    · obtain ⟨c, hc⟩ := Option.ne_none_iff_exists'.1 hv
      have hm' : v ∉ moved' := fun h'' => hm (hmoved.mem_iff.1 h'')
      obtain ⟨w, hw, _⟩ := h.frame.persists.stays hd.rep hc fun hm'' => hm ((h.moved_iff v).2 hm'')
      obtain ⟨w', hw', _⟩ :=
        h'.frame.persists.stays hd.rep hc fun hm'' => hm' ((h'.moved_iff v).2 hm'')
      rw [follow_of hw, follow_of hw']
      exact hold _ (hd.rep.forwarding_lt v c hc)
  refine ⟨ρ, hold, map_rename_of_links hlink hold hps hbyref, ?_, fun a ha => ?_, hbyref⟩
  · rw [List.map_map]
    exact List.map_congr_left fun p hp => (hps p hp).symm
  · obtain ⟨p, hp, rfl⟩ := List.mem_map.1 ha
    obtain ⟨c, zs, zs', w, w', hr, hr', hw, hw', hzs⟩ := htwins p hp
    obtain rfl := map_rename_of_links hzs hold hps hbyref
    exact ⟨c, zs, w, w', hr, (hps p hp).symm ▸ hr', hw.trans hw'.symm⟩

end

end BlocksRuntime
