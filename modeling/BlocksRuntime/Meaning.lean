import BlocksRuntime.Copy

/-!
# The closure a block denotes

What a program can see of a block: its code, its descriptor, its captured
values, the closures in its captured blocks, and the current values of its
`__block` variables.  A closure is a tree, given by the label at every path.

* `blockAt` follows captured blocks, and `observe` reads the label there.
* A `__block` variable is identified by the record that forwarding leads to.
  Copying moves variables, and `follow` in the new memory maps the identity of
  a variable in the old one to its new identity.
* `observe_alive` says that a live block denotes after a copy what it denoted
  before, and `observe_copyOf` that so does its copy.
-/

namespace BlocksRuntime

open Ownership

/-! ## Observations -/

/-- The words that make up the value of a `__block` variable. -/
def BlockByref.value (r : BlockByref) : List Word :=
  match r.byref2 with
  | none => r.storage
  | some h => [r.storage.getD h.byrefKeep.field 0]

/-- The record that the forwarding pointer at `a` leads to. -/
def follow (s : Mem) (a : Addr) : Addr :=
  match s.byrefs a with
  | some c => c.byref.forwarding
  | none => a

/-- The current value of the variable whose record is at `a`. -/
def contents (s : Mem) (a : Addr) : Option (List Word) :=
  (s.byrefs a).map fun c => c.byref.value

/-- What one sees of a captured variable. -/
inductive FieldLabel where
  | plain (value : Word)
  | object (o : Addr)
  | block
  | variable (identity : Addr) (value : Option (List Word))
  deriving DecidableEq, Repr

/-- What one sees of a block. -/
inductive Label where
  | null
  | block (invoke : Word) (descriptor : List Word) (captured : List FieldLabel)
  deriving DecidableEq, Repr

def captureLabel (s : Mem) (x : Capture) : FieldLabel :=
  match x.kind with
  | .plain => .plain x.value
  | .object => .object x.value
  | .block => .block
  | .byref => .variable (follow s x.value) (contents s (follow s x.value))
  | .weakByref => .variable (follow s x.value) (contents s (follow s x.value))

def blockLabel (s : Mem) (b : Addr) : Option Label :=
  if b = NULL then some .null
  else (s.blocks b).map fun c =>
    .block c.layout.invoke c.layout.descriptor (c.layout.captured.map (captureLabel s))

/-- The block in the captured variable `i` of the block `b`. -/
def blockIn (s : Mem) (b : Addr) (i : Nat) : Option Addr :=
  match s.blocks b with
  | none => none
  | some c =>
    match c.layout.captured[i]? with
    | none => none
    | some x => if x.kind = .block then some x.value else none

/-- The block at the end of a path of captured blocks. -/
def blockAt (s : Mem) : Addr → List Nat → Option Addr
  | b, [] => some b
  | b, i :: p =>
    match blockIn s b i with
    | none => none
    | some a => blockAt s a p

/-- The closure that a block denotes, as the label at each path. -/
def observe (s : Mem) (b : Addr) (p : List Nat) : Option Label :=
  (blockAt s b p).bind (blockLabel s)

def FieldLabel.rename (f : Addr → Addr) : FieldLabel → FieldLabel
  | .variable identity value => .variable (f identity) value
  | l => l

def Label.rename (f : Addr → Addr) : Label → Label
  | .null => .null
  | .block invoke descriptor captured => .block invoke descriptor (captured.map (.rename f))

/-- The identity of a `__block` variable: a record that forwards to itself. -/
def IsVariable (s : Mem) (a : Addr) : Prop :=
  ∃ c, s.byrefs a = some c ∧ c.byref.forwarding = a

/-! ## What is alive refers to what is alive -/

/-- `NULL` or a block that may be copied. -/
def AliveOrNull (s : Mem) (scope : Finset Addr) (b : Addr) : Prop :=
  b = NULL ∨ Alive s scope b

/-- `NULL`, a global block or a live heap block. -/
def OffStack (s : Mem) (a : Addr) : Prop :=
  a = NULL ∨ ∃ c, s.blocks a = some c ∧ (c.storage = .global ∨ c.Live)

section

variable {env : Env} {s t : Mem} {scope : Finset Addr} {X : Multiset Ref} {b : Addr}
  {c : BlockCell} {x : Capture}

theorem Alive.cell (h : Alive s scope b) : ∃ c, s.blocks b = some c := by
  cases h with
  | global _ c hc _ => exact ⟨c, hc⟩
  | heap _ c hc _ => exact ⟨c, hc⟩
  | stack _ c hc _ _ _ _ => exact ⟨c, hc⟩

theorem ownedRefs_of_mem {xs : List Capture} {r : Ref} (hx : x ∈ xs) (hr : r ∈ x.refs) :
    r ∈ ownedRefs xs := by
  induction xs with
  | nil => cases hx
  | cons y ys ih =>
    rw [ownedRefs, Multiset.mem_add]
    rcases List.mem_cons.1 hx with rfl | hx
    · exact Or.inl hr
    · exact Or.inr (ih hx)

/-- What a live heap block owns is external or live. -/
theorem Counted.owned_cases (hw : Counted s scope X) (hs : Rep s) (hc : s.blocks b = some c)
    (hl : c.Live) (hx : x ∈ c.layout.captured) {r : Ref} (hr : r ∈ x.refs) :
    (graphOf s).node r ≠ none ∨ External s r := by
  refine hw.closed r (Graph.refs_pos_of_owns _ (b := .block b) ?_)
  rw [Graph.owns_of_node (nodeAt_block hc (hs.block_lt b c hc) hl)]
  exact ownedRefs_of_mem hx hr

/-- A block owned by a live heap block. -/
theorem Counted.owned_block (hw : Counted s scope X) (hs : Rep s) (hc : s.blocks b = some c)
    (hl : c.Live) (hx : x ∈ c.layout.captured) (hk : x.kind = .block) : OffStack s x.value := by
  have hr : .block x.value ∈ x.refs := by simp [Capture.refs, hk]
  rcases hw.owned_cases hs hc hl hx hr with hnode | hnull | ⟨d, hd, hg⟩
  · obtain ⟨n, hn⟩ := Option.ne_none_iff_exists'.1 hnode
    obtain ⟨d, hd, _, hdl, _⟩ := nodeAt_block_some hn
    exact Or.inr ⟨d, hd, Or.inr hdl⟩
  · exact Or.inl hnull
  · exact Or.inr ⟨d, hd, Or.inl hg⟩

/-- A `__block` record owned by a live heap block. -/
theorem Counted.owned_byref (hw : Counted s scope X) (hs : Rep s) (hc : s.blocks b = some c)
    (hl : c.Live) (hx : x ∈ c.layout.captured) (hk : x.kind.isByref) :
    ∃ d, s.byrefs x.value = some d ∧ d.Live := by
  have hr : .byref x.value ∈ x.refs := by
    rcases hk with hk | hk <;> simp [Capture.refs, hk]
  rcases hw.owned_cases hs hc hl hx hr with hnode | hext
  · obtain ⟨n, hn⟩ := Option.ne_none_iff_exists'.1 hnode
    obtain ⟨d, hd, _, hdl, _⟩ := nodeAt_byref_some hn
    exact ⟨d, hd, hdl⟩
  · exact hext.elim

/-- A global block captures nothing that needs help. -/
theorem Rep.global_plain (hs : Rep s) (hc : s.blocks b = some c) (hg : c.storage = .global)
    (hx : x ∈ c.layout.captured) : x.kind ≠ .block ∧ ¬x.kind.isByref := by
  have hplain := (hs.block_ok b c hc).plain hg x hx
  simp [FieldKind.isByref, hplain]

theorem OffStack.aliveOrNull {a : Addr} (h : OffStack s a) : AliveOrNull s scope a := by
  rcases h with hnull | ⟨c, hc, hg | hl⟩
  · exact Or.inl hnull
  · exact Or.inr (.global a c hc hg)
  · exact Or.inr (.heap a c hc hl)

/-- A block captured by a live block is live. -/
theorem Alive.capturedBlock (hs : Rep s) (hw : Counted s scope X) (hb : Alive s scope b)
    (hc : s.blocks b = some c) (hx : x ∈ c.layout.captured) (hk : x.kind = .block) :
    AliveOrNull s scope x.value := by
  cases hb with
  | global _ c' hc' hg =>
    rw [hc, Option.some.injEq] at hc'
    exact absurd hk (hs.global_plain hc (hc' ▸ hg) hx).1
  | heap _ c' hc' hl =>
    rw [hc, Option.some.injEq] at hc'
    exact (hw.owned_block hs hc (hc' ▸ hl) hx hk).aliveOrNull
  | stack _ c' hc' _ _ hblock _ =>
    rw [hc, Option.some.injEq] at hc'
    subst hc'
    by_cases hnull : x.value = NULL
    · exact Or.inl hnull
    · exact Or.inr (hblock x hx hk hnull)

/-- A variable captured by a live block is live. -/
theorem Alive.capturedByref (hs : Rep s) (hw : Counted s scope X) (hb : Alive s scope b)
    (hc : s.blocks b = some c) (hx : x ∈ c.layout.captured) (hk : x.kind.isByref) :
    AliveByref s scope x.value := by
  cases hb with
  | global _ c' hc' hg =>
    rw [hc, Option.some.injEq] at hc'
    exact absurd hk (hs.global_plain hc (hc' ▸ hg) hx).2
  | heap _ c' hc' hl =>
    rw [hc, Option.some.injEq] at hc'
    obtain ⟨d, hd, hdl⟩ := hw.owned_byref hs hc (hc' ▸ hl) hx hk
    exact ⟨d, hd, fun hst => absurd hdl (ByrefCell.not_live_of_stack hst), fun _ => hdl⟩
  | stack _ c' hc' _ _ _ hbyref =>
    rw [hc, Option.some.injEq] at hc'
    subst hc'
    exact hbyref x hx hk

/-! ## Live blocks after a copy -/

theorem follow_of {a : Addr} {c : ByrefCell} (hc : s.byrefs a = some c) :
    follow s a = c.byref.forwarding := by
  simp [follow, hc]

theorem contents_of {a : Addr} {c : ByrefCell} (hc : s.byrefs a = some c) :
    contents s a = some c.byref.value := by
  simp [contents, hc]

theorem value_withFlags (c : ByrefCell) (w : Flags) :
    (c.withFlags w).byref.value = c.byref.value := rfl

/-- The word that the keep helper handles is copied. -/
theorem byrefStorage_field (env : Env) {v : Addr} {c : ByrefCell} {h : BlockByref2} (hok : c.Ok v)
    (hh : c.byref.byref2 = some h) :
    (byrefStorage env c.byref).getD h.byrefKeep.field 0 =
      c.byref.storage.getD h.byrefKeep.field 0 := by
  obtain ⟨field, flags, hk, _, hlt⟩ := (hok.helpers h hh).keep
  have hlen := length_byrefStorage env c.byref
  simp only [byrefStorage, hh] at hlen ⊢
  rw [List.length_set] at hlen
  rw [hk, ByrefKeep.field, List.getD_eq_getElem?_getD, List.getElem?_set_self (by omega)]
  rfl

/-- The heap copy of a record has the value of the variable. -/
theorem value_heapByref {v p : Addr} {c : ByrefCell} (hok : c.Ok v) :
    (heapByref env c.byref p).byref.value = c.byref.value := by
  unfold BlockByref.value
  show (match c.byref.byref2 with
    | none => byrefStorage env c.byref
    | some h => [(byrefStorage env c.byref).getD h.byrefKeep.field 0]) = _
  cases hh : c.byref.byref2 with
  | none => simp only [byrefStorage, hh]
  | some h => simp only [byrefStorage_field env hok hh]

/-- A live variable keeps its value, and its identity is followed. -/
theorem variable_alive {v : Addr} (hs : Rep s) (hw : Counted s scope X)
    (hp : Positive (graphOf s)) (h : Persists env s t) (hv : AliveByref s scope v) :
    follow t v = follow t (follow s v) ∧
      contents t (follow t v) = contents s (follow s v) := by
  have hready : Ready env s scope s X := ⟨Persists.refl env s, hs, hw, hp⟩
  obtain ⟨c, hc, ⟨hst, hf, _⟩ | ⟨d, hd, hl, _⟩⟩ := hready.byref_cases hs hv
  · -- The variable is on the stack, and may move now.
    rw [follow_of hc, hf, contents_of hc]
    refine ⟨rfl, ?_⟩
    rcases h.byref_stack hc hst with hstay | ⟨_, p, _, hmove, w, hcopy, _⟩
    · rw [follow_of hstay, hf, contents_of hstay]
    · rw [follow_of hmove]
      show contents t p = _
      rw [contents_of hcopy, value_withFlags, value_heapByref (hs.byref_ok v c hc)]
  · -- The variable has its record on the heap.
    have hdf := (hs.byref_ok _ d hd).heap hl.1
    obtain ⟨w, hw', _⟩ := h.byref_heap hd (by rw [hl.1]; decide)
    have hfd : follow t c.byref.forwarding = c.byref.forwarding := by
      rw [follow_of hw']
      exact hdf
    have hfv : follow t v = c.byref.forwarding := by
      by_cases hst : c.storage = .stack
      · rcases h.byref_stack hc hst with hstay | ⟨hf, _⟩
        · rw [follow_of hstay]
        · rw [hf, hc, Option.some.injEq] at hd
          rw [← hd] at hl
          exact absurd hl (ByrefCell.not_live_of_stack hst)
      · obtain ⟨w', hw'', _⟩ := h.byref_heap hc hst
        rw [follow_of hw'']
        rfl
    rw [follow_of hc, hfd, hfv, contents_of hw', contents_of hd, value_withFlags]
    exact ⟨rfl, rfl⟩

theorem captureLabel_congr (h : x.kind.isByref → follow t x.value = follow s x.value ∧
    contents t (follow t x.value) = contents s (follow s x.value)) :
    captureLabel t x = captureLabel s x := by
  unfold captureLabel
  have hbyref : x.kind.isByref →
      FieldLabel.variable (follow t x.value) (contents t (follow t x.value)) =
        .variable (follow s x.value) (contents s (follow s x.value)) := by
    intro hk
    rw [(h hk).2, (h hk).1]
  cases hk : x.kind with
  | plain => rfl
  | object => rfl
  | block => rfl
  | byref => exact hbyref (Or.inl hk)
  | weakByref => exact hbyref (Or.inr hk)

/-- What one sees of a variable that a live block captures. -/
theorem captureLabel_alive (hs : Rep s) (hw : Counted s scope X) (hp : Positive (graphOf s))
    (h : Persists env s t) (hv : x.kind.isByref → AliveByref s scope x.value) :
    captureLabel t x = (captureLabel s x).rename (follow t) := by
  unfold captureLabel
  have hbyref : x.kind.isByref →
      FieldLabel.variable (follow t x.value) (contents t (follow t x.value)) =
        (FieldLabel.variable (follow s x.value) (contents s (follow s x.value))).rename
          (follow t) := by
    intro hk
    obtain ⟨hf, hcont⟩ := variable_alive hs hw hp h (hv hk)
    rw [hcont, FieldLabel.rename, hf]
  cases hk : x.kind with
  | plain => rfl
  | object => rfl
  | block => rfl
  | byref => exact hbyref (Or.inl hk)
  | weakByref => exact hbyref (Or.inr hk)

theorem blockLabel_alive (hs : Rep s) (hw : Counted s scope X) (hp : Positive (graphOf s))
    (h : Persists env s t) (hb : AliveOrNull s scope b) :
    blockLabel t b = (blockLabel s b).map (.rename (follow t)) := by
  rcases hb with hnull | hb
  · rw [blockLabel, blockLabel, if_pos hnull, if_pos hnull]
    rfl
  · obtain ⟨c, hc⟩ := hb.cell
    obtain ⟨w, hw', _⟩ := h.block b c hc
    have hne := hs.ne_null hc
    have hlabels : c.layout.captured.map (captureLabel t) =
        (c.layout.captured.map (captureLabel s)).map (.rename (follow t)) := by
      rw [List.map_map]
      refine List.map_congr_left fun x hx => ?_
      exact captureLabel_alive hs hw hp h fun hk => hb.capturedByref hs hw hc hx hk
    rw [blockLabel, blockLabel, if_neg hne, if_neg hne, hc, hw']
    simp only [Option.map_some, Label.rename, BlockCell.withFlags, hlabels]

theorem blockIn_persists (h : Persists env s t) (hc : s.blocks b = some c) (i : Nat) :
    blockIn t b i = blockIn s b i := by
  obtain ⟨w, hw', _⟩ := h.block b c hc
  rw [blockIn, blockIn, hc, hw']
  rfl

theorem blockIn_some {i : Nat} {a : Addr} (hc : s.blocks b = some c) (ha : blockIn s b i = some a) :
    ∃ x ∈ c.layout.captured, c.layout.captured[i]? = some x ∧ x.kind = .block ∧ x.value = a := by
  rw [blockIn, hc] at ha
  simp only at ha
  cases hx : c.layout.captured[i]? with
  | none => simp [hx] at ha
  | some x =>
    simp only [hx] at ha
    by_cases hk : x.kind = .block
    · rw [if_pos hk, Option.some.injEq] at ha
      exact ⟨x, List.mem_of_getElem? hx, rfl, hk, ha⟩
    · rw [if_neg hk] at ha
      cases ha

/-- Every live block denotes after a copy what it denoted before. -/
theorem observe_alive (hs : Rep s) (hw : Counted s scope X) (hp : Positive (graphOf s))
    (h : Persists env s t) (hnull : t.blocks NULL = none) (p : List Nat) :
    ∀ b, AliveOrNull s scope b →
      observe t b p = (observe s b p).map (.rename (follow t)) := by
  -- The induction is on the path; the blocks on it are the same before and after.
  induction p with
  | nil => exact fun b hb => blockLabel_alive hs hw hp h hb
  | cons i p ih =>
    intro b hb
    rcases hb with hb | hb
    · have hnone : ∀ u : Mem, u.blocks NULL = none → observe u b (i :: p) = none := by
        intro u hu
        simp [observe, blockAt, blockIn, hb, hu]
      rw [hnone t hnull, hnone s hs.block_null]
      rfl
    · obtain ⟨c, hc⟩ := hb.cell
      rw [observe, observe, blockAt, blockAt, blockIn_persists h hc]
      cases ha : blockIn s b i with
      | none => rfl
      | some a =>
        obtain ⟨x, hx, _, hk, rfl⟩ := blockIn_some hc ha
        exact ih x.value (hb.capturedBlock hs hw hc hx hk)

/-! ## The copy -/

/-- What one sees of the captured variables of a copy. -/
theorem labels_copyOf {xs ys : List Capture} {made : List Addr} {lost : Nat} (hs : Rep s)
    (hw : Counted s scope X) (hp : Positive (graphOf s)) (ht : Rep t) (h : Persists env s t)
    (hcopy : CopyOf s t xs ys made lost)
    (hv : ∀ x ∈ xs, x.kind.isByref → AliveByref s scope x.value) :
    ys.map (captureLabel t) = (xs.map (captureLabel s)).map (.rename (follow t)) := by
  induction hcopy with
  | nil => rfl
  | plain x hk _ ih =>
    rw [List.map_cons, List.map_cons, List.map_cons,
      ih fun y hy => hv y (List.mem_cons_of_mem x hy),
      captureLabel_alive hs hw hp h (hv x List.mem_cons_self)]
  | @byref x _ _ _ _ c hk hc d hd hheap _ ih =>
    have hx := captureLabel_alive hs hw hp h (hv x List.mem_cons_self)
    have hdf := (ht.byref_ok _ d hd).heap hheap
    have hy : captureLabel t { x with value := c.byref.forwarding } = captureLabel t x := by
      have hfollow : follow t c.byref.forwarding = follow t x.value := by
        rw [follow_of hd, follow_of hc, hdf]
      rcases hk with hk | hk <;> simp only [captureLabel, hk, hfollow]
    rw [List.map_cons, List.map_cons, List.map_cons, hy, hx,
      ih fun y hy => hv y (List.mem_cons_of_mem x hy)]
  | shared x hk _ _ ih =>
    rw [List.map_cons, List.map_cons, List.map_cons,
      ih fun y hy => hv y (List.mem_cons_of_mem x hy),
      captureLabel_alive hs hw hp h (hv x List.mem_cons_self)]
  | fresh x hk _ _ _ _ _ _ _ ih =>
    rw [List.map_cons, List.map_cons, List.map_cons,
      ih fun y hy => hv y (List.mem_cons_of_mem x hy)]
    simp [captureLabel, hk, FieldLabel.rename]
  | failed x hk _ _ _ ih =>
    rw [List.map_cons, List.map_cons, List.map_cons,
      ih fun y hy => hv y (List.mem_cons_of_mem x hy)]
    simp [captureLabel, hk, FieldLabel.rename]

/-- The copy of a block denotes what the block denoted. -/
theorem observe_copyOf (hs : Rep s) (hw : Counted s scope X) (hp : Positive (graphOf s))
    (ht : Rep t) (h : Persists env s t) (p : List Nat) :
    ∀ x y made lost, CopyOf s t [x] [y] made lost → lost = 0 → x.kind = .block →
      AliveOrNull s scope x.value →
      observe t y.value p = (observe s x.value p).map (.rename (follow t)) := by
  induction p with
  | nil =>
    intro x y made lost hcopy hlost hk hx
    rcases hcopy.block_cases hk with ⟨rfl, _⟩ | ⟨c, zs, w, m, hc, hst, _, hr, _, hz, _⟩ | ⟨_, hl, _⟩
    · exact blockLabel_alive hs hw hp h hx
    · have hxb : Alive s scope x.value := hx.resolve_left (hs.ne_null hc)
      have hlabels := labels_copyOf hs hw hp ht h hz fun z hz hk =>
        hxb.capturedByref hs hw hc hz hk
      show blockLabel t y.value = (blockLabel s x.value).map _
      rw [blockLabel, blockLabel, if_neg (hs.ne_null hc), if_neg (ht.ne_null hr), hc, hr]
      simp only [Option.map_some, Label.rename, BlockCell.withFlags, heapBlock, hlabels]
    · omega
  | cons i p ih =>
    intro x y made lost hcopy hlost hk hx
    rcases hcopy.block_cases hk with ⟨rfl, _⟩ | ⟨c, zs, w, m, hc, hst, _, hr, _, hz, _⟩ | ⟨_, hl, _⟩
    · exact observe_alive hs hw hp h ht.block_null (i :: p) _ hx
    · have hxb : Alive s scope x.value := hx.resolve_left (hs.ne_null hc)
      have hin : blockIn t y.value i = match zs[i]? with
          | none => none
          | some z => if z.kind = .block then some z.value else none := by
        rw [blockIn, hr]
        rfl
      rw [observe, observe, blockAt, blockAt, hin, blockIn, hc]
      simp only
      cases hxi : c.layout.captured[i]? with
      | none =>
        have hzi : zs[i]? = none := by
          rw [List.getElem?_eq_none_iff, hz.length_eq]
          exact List.getElem?_eq_none_iff.1 hxi
        rw [hzi]
        rfl
      | some x' =>
        obtain ⟨y', m', l', hzi, hcopy', hl'⟩ := hz.get hxi
        have hkinds : y'.kind = x'.kind := by
          have hks := hcopy'.kinds
          simpa using hks
        rw [hzi]
        simp only [hkinds]
        by_cases hk' : x'.kind = .block
        · simp only [if_pos hk']
          exact ih x' y' m' l' hcopy' (by omega) hk'
            (hxb.capturedBlock hs hw hc (List.mem_of_getElem? hxi) hk')
        · simp only [if_neg hk']
          rfl
    · omega

/-! ## Off the stack -/

/-- A counted block is off the stack. -/
theorem Counted.offStack (hw : Counted s scope X) {a : Addr} (ha : .block a ∈ X) :
    OffStack s a := by
  rcases hw.block_cases ha with hnull | ⟨c, hc, hg⟩ | ⟨c, hc, _, hl⟩
  · exact Or.inl hnull
  · exact Or.inr ⟨c, hc, Or.inl hg⟩
  · exact Or.inr ⟨c, hc, Or.inr hl⟩

/-- What a block off the stack captures is off the stack. -/
theorem OffStack.captured (hs : Rep s) (hw : Counted s scope X) (hb : OffStack s b)
    (hc : s.blocks b = some c) (hx : x ∈ c.layout.captured) (hk : x.kind = .block) :
    OffStack s x.value := by
  rcases hb with hnull | ⟨c', hc', hcase⟩
  · exact absurd hnull (hs.ne_null hc)
  · rw [hc, Option.some.injEq] at hc'
    subst hc'
    rcases hcase with hg | hl
    · exact absurd hk (hs.global_plain hc hg hx).1
    · exact hw.owned_block hs hc hl hx hk

/-- Nothing on a path from a block off the stack is on the stack. -/
theorem offStack_blockAt (hs : Rep s) (hw : Counted s scope X) (p : List Nat) :
    ∀ b a, OffStack s b → blockAt s b p = some a → OffStack s a := by
  induction p with
  | nil =>
    intro b a hb ha
    rw [blockAt, Option.some.injEq] at ha
    exact ha ▸ hb
  | cons i p ih =>
    intro b a hb ha
    rw [blockAt] at ha
    cases hin : blockIn s b i with
    | none =>
      rw [hin] at ha
      cases ha
    | some b' =>
      rw [hin] at ha
      cases hc : s.blocks b with
      | none =>
        rw [blockIn, hc] at hin
        cases hin
      | some c =>
        obtain ⟨x, hx, _, hk, rfl⟩ := blockIn_some hc hin
        exact ih x.value a (hb.captured hs hw hc hx hk) ha

/-- Different variables stay different. -/
theorem follow_injective (hs : Rep s) (ht : Rep t) (h : Persists env s t) {u v : Addr}
    (hu : IsVariable s u) (hv : IsVariable s v) (he : follow t u = follow t v) : u = v := by
  have hcase : ∀ {a : Addr}, IsVariable s a → follow t a = a ∨ s.next ≤ follow t a ∧
      ∃ c, t.byrefs a = some c ∧ c.storage = .stack := by
    intro a ha
    obtain ⟨c, hc, hf⟩ := ha
    by_cases hst : c.storage = .stack
    · rcases h.byref_stack hc hst with hstay | ⟨_, p, hp, hmove, _⟩
      · exact Or.inl ((follow_of hstay).trans hf)
      · rw [follow_of hmove]
        exact Or.inr ⟨hp, _, hmove, hst⟩
    · obtain ⟨w, hw', _⟩ := h.byref_heap hc hst
      rw [follow_of hw']
      exact Or.inl hf
  have hlt : ∀ {a : Addr}, IsVariable s a → a < s.next := by
    intro a ha
    obtain ⟨c, hc, _⟩ := ha
    exact hs.byref_lt a c hc
  rcases hcase hu with hu' | ⟨hu', c, hc, hcst⟩ <;> rcases hcase hv with hv' | ⟨hv', d, hd, hdst⟩
  · rw [← hu', he, hv']
  · exact absurd (hlt hu) (by rw [← hu', he]; exact hv'.not_gt)
  · exact absurd (hlt hv) (by rw [← hv', ← he]; exact hu'.not_gt)
  · refine ht.forwarding_inj u v c d hc hd hcst hdst ?_
    rw [← follow_of hc, ← follow_of hd, he]

/-! ## The result -/

/-- `_Block_copy` preserves meaning: the copy and every live block denote
afterwards what they denoted before, and no block reached from the copy is on
the stack. -/
theorem blockCopy_meaning (hd : Disciplined s scope X) (hmalloc : ∀ k, env.mallocOk k = true)
    (hb : Alive s scope b) :
    ∃ c t, blockCopy env b s = .ok (c, t) ∧
      (∀ p, observe t c p = (observe s b p).map (.rename (follow t))) ∧
      (∀ a, Alive s scope a → ∀ p, observe t a p = (observe s a p).map (.rename (follow t))) ∧
      (∀ u v, IsVariable s u → IsVariable s v → follow t u = follow t v → u = v) ∧
      ((∀ d, s.blocks b = some d → d.storage ≠ .stack) → c = b) ∧
      ∀ p a, blockAt t c p = some a → OffStack t a := by
  obtain ⟨c, t, made, moved, e, hrun, hc⟩ := blockCopy_ok hd.rep hd.counted hd.positive hmalloc hb
  have hcounted := hc.counted hd.counted
  refine ⟨c, t, hrun, fun p => ?_, fun a ha p => ?_, fun u v hu hv he => ?_, fun hst => ?_,
    fun p a ha => ?_⟩
  · exact observe_copyOf hd.rep hd.counted hd.positive hc.rep hc.frame.persists p _ _ _ _ hc.copy
      rfl rfl (Or.inr hb)
  · exact observe_alive hd.rep hd.counted hd.positive hc.frame.persists hc.rep.block_null p a
      (Or.inr ha)
  · exact follow_injective hd.rep hc.rep hc.frame.persists hu hv he
  · rcases hc.copy.block_cases rfl with ⟨he, _⟩ | ⟨d, _, _, _, hd', hst', _⟩ | ⟨_, hl, _⟩
    · exact congrArg Capture.value he
    · exact absurd hst' (hst d hd')
    · exact absurd hl (Nat.lt_irrefl 0)
  · refine offStack_blockAt hc.rep hcounted p c a (hcounted.offStack ?_) ha
    simp [ownedRefs, Capture.refs]

end

theorem blockCopy_meaning_nested :
    ∃ c t, blockCopy plentiful 3 nested = .ok (c, t) ∧
      (∀ p, observe t c p = (observe nested 3 p).map (.rename (follow t))) ∧
      ∀ p a, blockAt t c p = some a → OffStack t a := by
  obtain ⟨c, t, hrun, hcopy, _, _, _, hoff⟩ :=
    blockCopy_meaning nested_disciplined plentiful_mallocOk nested_alive
  exact ⟨c, t, hrun, hcopy, hoff⟩

end BlocksRuntime
