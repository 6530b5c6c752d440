import BlocksRuntime.Client
import BlocksRuntime.Ownership.Survivors
import BlocksRuntime.Raw.Writes

/-!
# Compiled programs

A program as a list of operations on bytes, next to the operations that the
source asks for.

* `RawOp.run` is what the compiled operation does to the bytes.
* `Compiles` relates it to an operation of `Client`.  Compiled code lays down the
  bytes of blocks and variables, and it knows the offset of each word in the
  record of a variable.
* `compiled_run` is the simulation: no compiled program that follows the
  ownership discipline faults.
* `compiled_no_garbage` says that there is a reason for every object in the
  memory of bytes, and `compiled_ignores_junk` that a program does not depend on
  what `malloc` leaves in fresh memory.
-/

namespace BlocksRuntime.Raw

open Ownership RetryLoop ByteMemory StateFrame StateRefinement

/-! ## Compiled operations -/

/-- Read a variable through a pointer to its record. -/
def readVariable (p : Addr) (off : Nat) : RawM Word := do
  let forwarding ← load64 p 8
  load64 forwarding off

/-- Assign to a variable. -/
def writeVariable (p : Addr) (off : Nat) (value : Word) : RawM Unit := do
  let forwarding ← load64 p 8
  store64 forwarding off value

/-- The state of a compiled program. -/
structure RawClient where
  mem : RawMem
  /-- The references to blocks that the program holds. -/
  held : Multiset Ref

def RawClient.start : RawClient := ⟨RawMem.empty, 0⟩

/-- What a compiled program does.  Offsets are in bytes. -/
inductive RawOp where
  /-- Lay down a block or the record of a variable. -/
  | create (o : Object)
  | copy (b : Addr)
  | tryRetain (b : Addr)
  | release (b : Addr)
  | read (p : Addr) (off : Nat)
  | write (p : Addr) (off : Nat) (value : Word)
  | endScope (v : Addr) (flags : Flags)
  | leave (b : Addr)

/-- The code of an operation, with the word that a read gives. -/
def RawOp.run (im : Image) (env : RawEnv) (op : RawOp) (s : RawClient) :
    Except Fault (Option Word × RawClient) :=
  match op with
  | .create o => .ok (none, { s with mem := s.mem.create o })
  | .copy b =>
    match blockCopy im env b s.mem with
    | .ok (c, t) => .ok (none, ⟨t, .block c ::ₘ s.held⟩)
    | .error e => .error e
  | .tryRetain b =>
    match blockTryRetain b s.mem with
    | .ok (retained, t) => .ok (none, ⟨t, if retained then .block b ::ₘ s.held else s.held⟩)
    | .error e => .error e
  | .release b =>
    match blockRelease im b s.mem with
    | .ok (_, t) => .ok (none, ⟨t, s.held.erase (.block b)⟩)
    | .error e => .error e
  | .read p off =>
    match readVariable p off s.mem with
    | .ok (w, t) => .ok (some w, { s with mem := t })
    | .error e => .error e
  | .write p off value =>
    match writeVariable p off value s.mem with
    | .ok (_, t) => .ok (none, { s with mem := t })
    | .error e => .error e
  | .endScope v flags =>
    match blockObjectDispose im v flags s.mem with
    | .ok (_, t) => .ok (none, { s with mem := t })
    | .error e => .error e
  | .leave _ => .ok (none, s)

/-- The compiled operation does, from the memory `s` on, what the source asks
for. -/
inductive Compiles (im : Image) (s : Mem) : Op → RawOp → Prop where
  | globalBlock {b : BlockLayout} {o : Object} (h : BlockBytes im b o) :
      Compiles im s (.globalBlock b) (.create o)
  | literal {b : BlockLayout} {o : Object} (h : BlockBytes im b o) :
      Compiles im s (.literal b) (.create o)
  | declare {b : BlockByref} {o : Object}
      (h : ByrefBytes im False s.next { b with forwarding := s.next } o) :
      Compiles im s (.declare b) (.create o)
  | copy (b : Addr) : Compiles im s (.copy b) (.copy b)
  | tryRetain (b : Addr) : Compiles im s (.tryRetain b) (.tryRetain b)
  | release (b : Addr) : Compiles im s (.release b) (.release b)
  | read {p : Addr} {c : ByrefCell} (i : Nat) (hc : s.byrefs p = some c) :
      Compiles im s (.read p i) (.read p (byrefHeader c.byref + 8 * i))
  | write {p : Addr} {c : ByrefCell} (i : Nat) {value : Word} (hc : s.byrefs p = some c)
      (hvalue : value < addressLimit) :
      Compiles im s (.write p i value) (.write p (byrefHeader c.byref + 8 * i) value)
  | endScope (v : Addr) (flags : Flags) : Compiles im s (.endScope v flags) (.endScope v flags)
  | leave (b : Addr) : Compiles im s (.leave b) (.leave b)

/-! ## Where the words of a variable are -/

/-- A record and the one that it forwards to have their words at the same
offset. -/
def SameHeader (s : Mem) : Prop :=
  ∀ a c d, s.byrefs a = some c → s.byrefs c.byref.forwarding = some d →
    byrefHeader d.byref = byrefHeader c.byref

theorem byrefHeader_withFlags {c : ByrefCell} {w : Flags} (h : SameMeta w c.byref.flags) :
    byrefHeader (c.withFlags w).byref = byrefHeader c.byref :=
  byrefHeader_congr (and_eq_of_high_eq h.high _ (by decide))

section

variable {env : Env} {s t : Client} {m m' : Mem} {op : Op} {res : Option Word} {a v : Addr}
  {c d : ByrefCell}

/-- The heap copy of a record has its words where the record has them. -/
theorem byrefHeader_heapCopy (h : HeapCopyAt env m c v) (hd : m.byrefs v = some d) :
    byrefHeader d.byref = byrefHeader c.byref := by
  obtain ⟨w, hw, hmeta⟩ := h
  obtain rfl := Option.some.inj (hw.symm.trans hd)
  have hheap : byrefHeader (heapByref env c.byref v).byref = byrefHeader c.byref :=
    byrefHeader_congr (heapByrefFlags_other _ (by decide))
  exact (byrefHeader_withFlags hmeta).trans hheap

theorem SameHeader.extends {x : Option Addr} {e : Multiset Ref} (h : SameHeader m) (hs : Rep m)
    (ht : Rep m') (hext : Extends env x m m' e) : SameHeader m' := by
  -- a record that was there keeps its header
  have hold : ∀ b c₀ d, m.byrefs b = some c₀ → m'.byrefs b = some d →
      byrefHeader d.byref = byrefHeader c₀.byref := by
    intro b c₀ d hc₀ hd
    rcases hext.persists.byref b c₀ hc₀ with ⟨w, hw, hmeta, _⟩ | ⟨_, _, v, _, hv, _⟩
    · obtain rfl := Option.some.inj (hw.symm.trans hd)
      exact byrefHeader_withFlags hmeta
    · obtain rfl := Option.some.inj (hv.symm.trans hd)
      rfl
  intro a c d hc hd
  cases hc₀ : m.byrefs a with
  | none =>
    obtain ⟨_, hlive, _⟩ := hext.byref_new a c hc₀ hc
    rw [(ht.byref_ok a c hc).heap hlive.1] at hd
    obtain rfl := Option.some.inj (hc.symm.trans hd)
    rfl
  | some c₀ =>
    rcases hext.persists.byref a c₀ hc₀ with ⟨w, hw, hmeta, _⟩ | ⟨_, _, v, _, hv, hcopy⟩
    · obtain rfl := Option.some.inj (hw.symm.trans hc)
      have hlt : c₀.byref.forwarding < m.next := hs.forwarding_lt a c₀ hc₀
      have hd' : m'.byrefs c₀.byref.forwarding = some d := hd
      cases hd₀ : m.byrefs c₀.byref.forwarding with
      | none => exact absurd (hext.byref_new _ d hd₀ hd').1 (Nat.not_le.2 hlt)
      | some d₀ =>
        rw [hold _ d₀ d hd₀ hd', byrefHeader_withFlags hmeta]
        exact h a c₀ d₀ hc₀ hd₀
    · obtain rfl := Option.some.inj (hv.symm.trans hc)
      exact byrefHeader_heapCopy hcopy hd

theorem SameHeader.released {w : Multiset Ref} (h : SameHeader m) (hr : Released m w m') :
    SameHeader m' := by
  intro a c d hc hd
  obtain ⟨f, _, hsh⟩ := hr
  obtain ⟨c₀, v, hc₀, rfl, hv, _⟩ := hsh.byref_some hc
  obtain ⟨d₀, w, hd₀, rfl, hw, _⟩ := hsh.byref_some hd
  rw [byrefHeader_withFlags hv, byrefHeader_withFlags hw]
  exact h a c₀ d₀ hc₀ hd₀

theorem SameHeader.newByref (h : SameHeader m) (hs : Rep m) (b : BlockByref) :
    SameHeader (m.newByref b) := by
  intro a c d hc hd
  by_cases ha : a = m.next
  · subst ha
    rw [Mem.newByref_self, Option.some.injEq] at hc
    subst hc
    obtain rfl := Option.some.inj ((Mem.newByref_self m b).symm.trans hd)
    rfl
  · rw [Mem.newByref_ne m b ha] at hc
    rw [Mem.newByref_ne m b (hs.forwarding_lt a c hc).ne] at hd
    exact h a c d hc hd

theorem SameHeader.write {i : Nat} {value : Word} (h : SameHeader m) (hc : m.byrefs a = some c) :
    SameHeader (m.setByref a (c.write i value)) := by
  have hold : ∀ b e, (m.setByref a (c.write i value)).byrefs b = some e →
      ∃ e₀, m.byrefs b = some e₀ ∧ e.byref.forwarding = e₀.byref.forwarding ∧
        byrefHeader e.byref = byrefHeader e₀.byref := by
    intro b e he
    obtain ⟨e₀, he₀, rfl | ⟨rfl, rfl, rfl⟩⟩ := Mem.write_cases hc he
    · exact ⟨_, he₀, rfl, rfl⟩
    · exact ⟨e₀, he₀, rfl, rfl⟩
  intro b d e hd he
  obtain ⟨d₀, hd₀, hforwarding, hheader⟩ := hold b d hd
  obtain ⟨e₀, he₀, _, hheader'⟩ := hold _ e he
  rw [hheader, hheader']
  rw [hforwarding] at he₀
  exact h b d₀ e₀ hd₀ he₀

/-- No operation moves the words of a variable. -/
theorem SameHeader.transition (h : SameHeader s.mem) (hs : Disciplined s.mem s.scope s.held)
    (ht : Transition env s op res t) : SameHeader t.mem := by
  cases ht with
  | block => exact h
  | declare r => exact h.newByref hs.rep r
  | grow _ hc => exact h.extends hs.rep hc.rep hc.frame
  | shrink _ hr => exact h.released hr
  | read => exact h
  | write _ _ _ _ _ hd => exact h.write hd

end

/-! ## Words -/

section

variable {im : Image} {u : Prop} {a : Addr} {d : ByrefCell} {o p : Object} {r : RawMem} {i : Nat}

/-- A word of a variable is at its offset. -/
theorem ByrefBytes.variable_run (hb : ByrefBytes im False a d.byref o) (hok : d.Ok a)
    (hi : d.byref.HasWord i) (ho : r.objects a = some o) {w : Word}
    (hw : d.byref.storage[i]? = some w) :
    load64 a (byrefHeader d.byref + 8 * i) r = .ok (w, r) := by
  have hlt := hi.lt hok
  have hfits := hb.fits
  have hroom := hb.room
  rw [load64_run ho (by omega)]
  by_cases hhas : d.byref.flags &&& BLOCK_BYREF_HAS_COPY_DISPOSE ≠ 0
  · obtain ⟨h, hh⟩ := Option.isSome_iff_exists.1 (hok.byref2.1 hhas)
    unfold BlockByref.HasWord at hi
    rw [hh] at hi
    obtain rfl : i = h.byrefKeep.field := hi
    rw [byrefHeader_helpers hhas, hb.field hhas not_false h w hh hw]
  · have hzero := not_not.1 hhas
    rw [byrefHeader_plain hzero, hb.plain hzero i w hw]

/-- An assignment to a word of a variable. -/
theorem ByrefBytes.storeWord (hb : ByrefBytes im False a d.byref o) (hok : d.Ok a)
    (hi : d.byref.HasWord i) {value : Word} (hv : value < addressLimit)
    (hp : o.Stored 8 (byrefHeader d.byref + 8 * i) value p) :
    ByrefBytes im False a (d.write i value).byref p := by
  by_cases hhas : d.byref.flags &&& BLOCK_BYREF_HAS_COPY_DISPOSE ≠ 0
  · obtain ⟨h, hh⟩ := Option.isSome_iff_exists.1 (hok.byref2.1 hhas)
    unfold BlockByref.HasWord at hi
    rw [hh] at hi
    obtain rfl : i = h.byrefKeep.field := hi
    rw [byrefHeader_helpers hhas] at hp
    exact hb.storeField hhas hh hv hp
  · have hzero := not_not.1 hhas
    rw [byrefHeader_plain hzero] at hp
    have hmiss : ∀ n off, off + n ≤ 24 → p.field n off = o.field n off := fun n off hle =>
      hp.miss n off (by omega)
    refine ⟨⟨?_, ?_, ?_, ?_⟩, ?_, ?_, ?_, fun h => absurd h hhas, fun h => absurd h hhas,
      fun h => absurd h hhas, False.elim⟩
    · exact (hmiss 8 0 (by decide)).trans hb.isa
    · exact (hmiss 8 8 (by decide)).trans hb.forwarding
    · exact (hmiss 4 16 (by decide)).trans hb.flags
    · exact (hmiss 4 20 (by decide)).trans hb.size
    · show byrefHeader d.byref + 8 * (d.byref.storage.set i value).length ≤ _
      rw [List.length_set]
      exact hb.fits
    · rw [hp.size]
      exact hb.room
    · intro _ j w hw
      have hw' : (d.byref.storage.set i value)[j]? = some w := hw
      by_cases hij : i = j
      · subst hij
        have hlt := (List.getElem?_eq_some_iff.1 hw').1
        rw [List.length_set] at hlt
        rw [List.getElem?_set_self hlt, Option.some.injEq] at hw'
        exact hw' ▸ hp.hit hv
      · rw [List.getElem?_set_ne hij] at hw'
        rw [hp.miss 8 _ (by omega)]
        exact hb.plain hzero j w hw'

end

/-! ## Operations -/

section

variable {im : Image} {env : RawEnv} {junk : Nat → Word} {U : Set Addr} {r : RawMem} {s t : Mem}
  {a p : Addr} {o : Object}

/-- The record that an access to a variable ends at. -/
theorem accessible_target {c : Client} {i : Nat} {e : ByrefCell}
    (hd : Disciplined c.mem c.scope c.held) (hsame : SameHeader c.mem)
    (h : Represents im ∅ r c.mem) (ha : Accessible c p i) (he : c.mem.byrefs p = some e) :
    ∃ d o, load64 p 8 r = .ok (e.byref.forwarding, r) ∧
      c.mem.byrefs e.byref.forwarding = some d ∧ d.Ok e.byref.forwarding ∧ d.byref.HasWord i ∧
      byrefHeader d.byref = byrefHeader e.byref ∧ r.objects e.byref.forwarding = some o ∧
      ByrefBytes im False e.byref.forwarding d.byref o := by
  obtain ⟨e', d, he', hcell, hi⟩ := ha.cells
  obtain rfl : e = e' := Option.some.inj (he.symm.trans he')
  obtain ⟨o, ho, hb⟩ := h.byref p e he
  obtain ⟨q, hq, hb'⟩ := h.byref _ d hcell
  rw [eq_false (Set.notMem_empty _)] at hb'
  exact ⟨d, q, hb.forwarding_run ho, hcell, hd.rep.byref_ok _ d hcell, hi, hsame _ _ _ he hcell,
    hq, hb'⟩

theorem readVariable_run {c : Client} {i : Nat} {w : Word} {e : ByrefCell} {t : Mem}
    (hd : Disciplined c.mem c.scope c.held) (hsame : SameHeader c.mem)
    (h : Represents im ∅ r c.mem) (ha : Accessible c p i) (he : c.mem.byrefs p = some e)
    (hrun : BlocksRuntime.readVariable p i c.mem = .ok (w, t)) :
    readVariable p (byrefHeader e.byref + 8 * i) r = .ok (w, r) ∧ t = c.mem := by
  obtain ⟨d, o, hload, hcell, hok, hi, hheader, ho, hb⟩ := accessible_target hd hsame h ha he
  have hlt := hi.lt hok
  have hw : d.byref.storage[i]? = some d.byref.storage[i] := List.getElem?_eq_getElem hlt
  rw [readVariable_ok he hcell hw] at hrun
  obtain ⟨rfl, rfl⟩ := Prod.mk.inj (Except.ok.inj hrun)
  refine ⟨?_, rfl⟩
  rw [readVariable, run_bind hload, ← hheader]
  exact hb.variable_run hok hi ho hw

theorem writeVariable_run {c : Client} {i : Nat} {value : Word} {e : ByrefCell} {t : Mem}
    (hd : Disciplined c.mem c.scope c.held) (hsame : SameHeader c.mem)
    (h : Represents im ∅ r c.mem) (ha : Accessible c p i) (he : c.mem.byrefs p = some e)
    (hvalue : value < addressLimit)
    (hrun : BlocksRuntime.writeVariable p i value c.mem = .ok ((), t)) :
    ∃ u, writeVariable p (byrefHeader e.byref + 8 * i) value r = .ok ((), u) ∧
      Represents im ∅ u t := by
  obtain ⟨d, o, hload, hcell, hok, hi, hheader, ho, hb⟩ := accessible_target hd hsame h ha he
  rw [writeVariable_ok he hcell] at hrun
  obtain ⟨_, rfl⟩ := Prod.mk.inj (Except.ok.inj hrun)
  have hlt := hi.lt hok
  have hfits := hb.fits
  have hroom := hb.room
  obtain ⟨q, hq, hstored⟩ := store_run ho 8 (byrefHeader d.byref + 8 * i) (by omega) value
  have hword := hb.storeWord hok hi hvalue hstored
  rw [← eq_false (Set.notMem_empty e.byref.forwarding)] at hword
  refine ⟨_, ?_, h.setByref (d := d.write i value) hcell hword⟩
  rw [writeVariable, run_bind hload, ← hheader]
  exact hq

theorem writes_blockTryRetain (b : Addr) : WritesOnly headerBytes (blockTryRetain b) :=
  writes_loopFlags (bytesAt_subset_header (by decide) (by decide))

theorem writes_writeVariable (p : Addr) (off : Nat) (value : Word) :
    WritesOnly Set.univ (writeVariable p off value) :=
  writes_bind (reads_load64 p 8).writes fun _ => writes_store (Set.subset_univ _) value

/-- The bytes and the references of a compiled program are those of the
program. -/
structure Matches (im : Image) (r : RawClient) (s : Client) : Prop where
  mem : Represents im ∅ r.mem s.mem
  allocated : Allocated r.mem
  held : r.held = s.held
  disciplined : Disciplined s.mem s.scope s.held
  header : SameHeader s.mem

theorem matches_start (im : Image) : Matches im .start .start where
  mem := represents_empty im
  allocated := allocated_empty
  held := rfl
  disciplined := disciplined_empty
  header _ _ _ hc := by cases hc

variable {op : Op} {rop : RawOp} {res : Option Word} {rc : RawClient} {c d : Client}

/-- A compiled operation does to the bytes what the operation does to the
records. -/
theorem Matches.bytes (h : Matches im rc c) (ha : op.Allowed c) (hcode : Compiles im c.mem op rop)
    (hrun : op.run (env.toEnv junk) c = .ok (res, d)) (hlimit : Addressable d.mem) :
    ∃ u, rop.run im env rc = .ok (res, u) ∧ Represents im ∅ u.mem d.mem ∧ Allocated u.mem ∧
      u.held = d.held := by
  have hmem := h.mem
  have halloc := h.allocated
  cases hcode with
  | globalBlock ho =>
    obtain ⟨rfl, rfl⟩ := Prod.mk.inj (Except.ok.inj hrun)
    exact ⟨_, rfl, hmem.newBlock hlimit ho, halloc.create _, h.held⟩
  | literal ho =>
    obtain ⟨rfl, rfl⟩ := Prod.mk.inj (Except.ok.inj hrun)
    exact ⟨_, rfl, hmem.newBlock hlimit ho, halloc.create _, h.held⟩
  | declare ho =>
    obtain ⟨rfl, rfl⟩ := Prod.mk.inj (Except.ok.inj hrun)
    exact ⟨_, rfl, hmem.newByref hlimit ho, halloc.create _, h.held⟩
  | copy b =>
    rw [Op.run] at hrun
    cases hcall : BlocksRuntime.blockCopy (env.toEnv junk) b c.mem with
    | error e =>
      rw [hcall] at hrun
      cases hrun
    | ok x =>
      rw [hcall] at hrun
      obtain ⟨rfl, rfl⟩ := Prod.mk.inj (Except.ok.inj hrun)
      obtain ⟨u, hu, hend⟩ := blockCopy_run hmem hcall hlimit
      exact ⟨_, by rw [RawOp.run, hu], hend, (writes_blockCopyN im env _ b _ _ _ halloc hu).1,
        congrArg (.block x.1 ::ₘ ·) h.held⟩
  | tryRetain b =>
    rw [Op.run] at hrun
    cases hcall : BlocksRuntime.blockTryRetain b c.mem with
    | error e =>
      rw [hcall] at hrun
      cases hrun
    | ok x =>
      rw [hcall] at hrun
      obtain ⟨rfl, rfl⟩ := Prod.mk.inj (Except.ok.inj hrun)
      obtain ⟨u, hu, hend⟩ := blockTryRetain_run hmem hcall
      refine ⟨_, by rw [RawOp.run, hu], hend, (writes_blockTryRetain b _ _ _ halloc hu).1, ?_⟩
      rw [h.held]
  | release b =>
    rw [Op.run] at hrun
    cases hcall : BlocksRuntime.blockRelease b c.mem with
    | error e =>
      rw [hcall] at hrun
      cases hrun
    | ok x =>
      rw [hcall] at hrun
      obtain ⟨rfl, rfl⟩ := Prod.mk.inj (Except.ok.inj hrun)
      obtain ⟨u, hu, hend⟩ := blockRelease_run hmem hcall
      exact ⟨_, by rw [RawOp.run, hu], hend, (frees_blockReleaseN im _ b _ _ _ halloc hu).1,
        congrArg (·.erase (.block b)) h.held⟩
  | read i he =>
    rw [Op.run] at hrun
    cases hcall : BlocksRuntime.readVariable _ i c.mem with
    | error e =>
      rw [hcall] at hrun
      cases hrun
    | ok x =>
      rw [hcall] at hrun
      obtain ⟨rfl, rfl⟩ := Prod.mk.inj (Except.ok.inj hrun)
      obtain ⟨hraw, hsame⟩ := readVariable_run h.disciplined h.header hmem ha he hcall
      refine ⟨_, by rw [RawOp.run, hraw], ?_, halloc, h.held⟩
      rw [hsame]
      exact hmem
  | write i he hvalue =>
    rw [Op.run] at hrun
    cases hcall : BlocksRuntime.writeVariable _ i _ c.mem with
    | error e =>
      rw [hcall] at hrun
      cases hrun
    | ok x =>
      rw [hcall] at hrun
      obtain ⟨rfl, rfl⟩ := Prod.mk.inj (Except.ok.inj hrun)
      obtain ⟨u, hu, hend⟩ := writeVariable_run h.disciplined h.header hmem ha he hvalue hcall
      exact ⟨{ rc with mem := u }, by rw [RawOp.run, hu], hend,
        (writes_writeVariable _ _ _ _ _ _ halloc hu).1, h.held⟩
  | endScope v flags =>
    rw [Op.run] at hrun
    cases hcall : BlocksRuntime.blockObjectDispose v flags c.mem with
    | error e =>
      rw [hcall] at hrun
      cases hrun
    | ok x =>
      rw [hcall] at hrun
      obtain ⟨rfl, rfl⟩ := Prod.mk.inj (Except.ok.inj hrun)
      obtain ⟨u, hu, hend⟩ := blockObjectDispose_run hmem hcall
      exact ⟨{ rc with mem := u }, by rw [RawOp.run, hu], hend,
        (frees_blockObjectDisposeN im _ v flags _ _ _ halloc hu).1, h.held⟩
  | leave b =>
    obtain ⟨rfl, rfl⟩ := Prod.mk.inj (Except.ok.inj hrun)
    exact ⟨_, rfl, hmem, halloc, h.held⟩

/-- An allowed operation returns, and so does the compiled one. -/
theorem Matches.step (hmalloc : ∀ k, env.mallocOk k = true) (h : Matches im rc c)
    (ha : op.Allowed c) (hcode : Compiles im c.mem op rop) :
    ∃ res d, op.run (env.toEnv junk) c = .ok (res, d) ∧
      (Addressable d.mem → ∃ u, rop.run im env rc = .ok (res, u) ∧ Matches im u d) := by
  have hmalloc' : ∀ k, (env.toEnv junk).mallocOk k = true := hmalloc
  obtain ⟨res, d, hrun, ht⟩ := Op.run_spec h.disciplined hmalloc' ha
  refine ⟨res, d, hrun, fun hlimit => ?_⟩
  obtain ⟨u, hu, hmem, halloc, hheld⟩ := h.bytes ha hcode hrun hlimit
  exact ⟨u, hu, hmem, halloc, hheld, h.disciplined.transition ht,
    h.header.transition h.disciplined ht⟩

/-! ## Programs -/

/-- The compiled program follows the ownership discipline, and there is an
address for everything that it allocates. -/
def Program (im : Image) (env : Env) (code : List (Op × RawOp)) : Prop :=
  AllAllowed (fun s => Addressable s.mem) (fun op rop s => op.Allowed s ∧ Compiles im s.mem op rop)
    (Op.run env) code .start

/-- The simulation of a whole program. -/
theorem Program.simulates {code : List (Op × RawOp)} (h : Program im (env.toEnv junk) code)
    (hmalloc : ∀ k, env.mallocOk k = true) :
    ∃ results s r, runAll (Op.run (env.toEnv junk)) (code.map Prod.fst) .start = .ok (results, s) ∧
      runAll (RawOp.run im env) (code.map Prod.snd) .start = .ok (results, r) ∧
      Matches im r s :=
  runAll_simulates (fun _ _ _ _ hmatch hallowed => hmatch.step hmalloc hallowed.1 hallowed.2) code
    (matches_start im) h

/-- A compiled program never faults.  It accesses no byte outside of an object
or in a freed one and calls no wild pointer.  It reads the words that the source
program reads and ends with the same references, and its bytes represent the
records at the end. -/
theorem compiled_run {code : List (Op × RawOp)} (hmalloc : ∀ k, env.mallocOk k = true)
    (h : Program im (env.toEnv junk) code) :
    ∃ results s r, runAll (Op.run (env.toEnv junk)) (code.map Prod.fst) .start = .ok (results, s) ∧
      runAll (RawOp.run im env) (code.map Prod.snd) .start = .ok (results, r) ∧
      Matches im r s :=
  h.simulates hmalloc

/-! ### Garbage -/

/-- Why there is an object at `a`: the program created it, or it holds a heap
record that can be reached from a reference that the program holds, from an
ownership cycle or from a record whose count has latched. -/
inductive Justified (s : Client) (a : Addr) : Prop where
  | createdBlock (c : BlockCell) (hc : s.mem.blocks a = some c) (hst : c.storage ≠ .heap)
  | createdByref (c : ByrefCell) (hc : s.mem.byrefs a = some c) (hst : c.storage ≠ .heap)
  | block (h : (graphOf s.mem).Kept latched (scopeRefs s.mem s.scope + s.held) (.block a))
  | byref (h : (graphOf s.mem).Kept latched (scopeRefs s.mem s.scope + s.held) (.byref a))

/-- Under the discipline every heap record is kept. -/
theorem Disciplined.kept {m : Mem} {scope : Finset Addr} {w : Multiset Ref} {x : Ref}
    (h : Disciplined m scope w) (hx : (graphOf m).node x ≠ none) :
    (graphOf m).Kept latched (scopeRefs m scope + w) x := by
  have hsound : Sound latched (External m) (graphOf m) (0 + (scopeRefs m scope + w)) := by
    rw [zero_add]
    exact h.counted
  exact survivor_kept (Drains.nil latched _) hsound h.positive hx

theorem Matches.justified (h : Matches im rc c) (ho : rc.mem.objects a = some o) :
    Justified c a := by
  have hd := h.disciplined
  rcases h.mem.holds ho with ⟨e, he⟩ | ⟨e, he⟩
  · by_cases hst : e.storage = .heap
    · have hnode := nodeAt_block he (hd.rep.block_lt a e he) (hd.settled_block a e he hst)
      exact .block (Disciplined.kept hd (graphOf_node c.mem _ ▸ hnode ▸ Option.some_ne_none _))
    · exact .createdBlock e he hst
  · by_cases hst : e.storage = .heap
    · have hnode := nodeAt_byref he (hd.rep.byref_lt a e he) (hd.settled_byref a e he hst)
      exact .byref (Disciplined.kept hd (graphOf_node c.mem _ ▸ hnode ▸ Option.some_ne_none _))
    · exact .createdByref e he hst

/-- A compiled program leaves no garbage in the memory of bytes. -/
theorem compiled_no_garbage {code : List (Op × RawOp)} (hmalloc : ∀ k, env.mallocOk k = true)
    (h : Program im (env.toEnv junk) code) :
    ∃ results s r, runAll (Op.run (env.toEnv junk)) (code.map Prod.fst) .start = .ok (results, s) ∧
      runAll (RawOp.run im env) (code.map Prod.snd) .start = .ok (results, r) ∧
      ∀ a o, r.mem.objects a = some o → Justified s a := by
  obtain ⟨results, s, r, hsource, hbytes, hmatch⟩ := h.simulates hmalloc
  exact ⟨results, s, r, hsource, hbytes, fun a o ho => hmatch.justified ho⟩

/-! ### Uninitialised memory -/

/-- What `malloc` leaves in fresh memory does not matter: with other bytes there
the program reads the same words, makes the same calls and ends with the same
references. -/
theorem compiled_ignores_junk {code : List (Op × RawOp)} {env' : RawEnv}
    (hmalloc : ∀ k, env.mallocOk k = true) (hsame : env'.mallocOk = env.mallocOk)
    (h : Program im (env.toEnv junk) code) :
    ∃ results r r', runAll (RawOp.run im env) (code.map Prod.snd) .start = .ok (results, r) ∧
      runAll (RawOp.run im env') (code.map Prod.snd) .start = .ok (results, r') ∧
      r'.held = r.held ∧ r'.mem.trace = r.mem.trace ∧
      ∃ s, Matches im r s ∧ Matches im r' s := by
  have henv : env'.toEnv junk = env.toEnv junk := by rw [RawEnv.toEnv, hsame, RawEnv.toEnv]
  have h' : Program im (env'.toEnv junk) code := henv ▸ h
  obtain ⟨results, s, r, hsource, hbytes, hmatch⟩ := h.simulates hmalloc
  obtain ⟨results', s', r', hsource', hbytes', hmatch'⟩ := h'.simulates (hsame ▸ hmalloc)
  rw [henv, hsource] at hsource'
  obtain ⟨rfl, rfl⟩ := Prod.mk.inj (Except.ok.inj hsource')
  exact ⟨results, r, r', hbytes, hbytes', hmatch'.held.trans hmatch.held.symm,
    hmatch'.mem.trace.trans hmatch.mem.trace.symm, s, hmatch, hmatch'⟩

end

/-! ## A small compiled program -/

/-- The outer block is copied, and the variable is read and assigned to through
the record on the stack. -/
def nestedCode : List (Op × RawOp) :=
  [(.declare counterRecord, .create counterBytes), (.literal innerLiteral, .create innerBytes),
    (.literal outerLiteral, .create outerBytes), (.copy 3, .copy 3), (.read 1 0, .read 1 24),
    (.write 1 0 42, .write 1 24 42), (.release 4, .release 4)]

theorem nestedCode_program : Program sampleImage (roomy.toEnv fun _ => 0) nestedCode := by
  have haccess : Accessible copiedClient 1 0 :=
    ⟨⟨_, rfl, fun _ => by decide, fun hst => absurd hst (by decide)⟩, _, rfl, Nat.one_pos⟩
  have hheld : Ref.block 4 ∈ copiedClient.held := by
    rw [copiedClient_held]
    exact Multiset.mem_singleton_self _
  have hlimit : ∀ s : Client, s.mem.next ≤ 7 → Addressable s.mem := fun s h =>
    h.trans (by decide)
  refine .cons (t := ⟨Mem.empty.newByref counterRecord, {1}, 0⟩)
    ⟨counterRecord_ok, .declare counterBytes_ok⟩ rfl (hlimit _ (by decide)) ?_
  refine .cons
    (t := ⟨(Mem.empty.newByref counterRecord).newBlock ⟨.stack, innerLiteral⟩, {2, 1}, 0⟩)
    ⟨⟨rfl, by decide, by decide, by decide, by decide, by decide⟩, .literal innerBytes_ok⟩ rfl
    (hlimit _ (by decide)) ?_
  refine .cons (t := nestedClient)
    ⟨⟨rfl, by decide, by decide, by decide, by decide, by decide⟩, .literal outerBytes_ok⟩ rfl
    (hlimit _ (by decide)) ?_
  refine .cons (t := copiedClient) ⟨nested_alive, .copy 3⟩ rfl (hlimit _ (by decide)) ?_
  refine .cons (t := copiedClient)
    ⟨haccess, .read (c := ⟨.stack, { counterRecord with forwarding := 6 }⟩) 0 rfl⟩ rfl
    (hlimit _ (by decide)) ?_
  refine .cons (t := (Op.write 1 0 42).after plentiful copiedClient)
    ⟨haccess, .write (c := ⟨.stack, { counterRecord with forwarding := 6 }⟩) 0 rfl (by decide)⟩ rfl
    (hlimit _ (by decide)) ?_
  exact .cons (t := (Op.release 4).after plentiful ((Op.write 1 0 42).after plentiful copiedClient))
    ⟨hheld, .release 4⟩ rfl (hlimit _ (by decide)) trivial

theorem compiled_run_nested : ∃ results s r,
    runAll (Op.run (roomy.toEnv fun _ => 0)) (nestedCode.map Prod.fst) .start = .ok (results, s) ∧
      runAll (RawOp.run sampleImage roomy) (nestedCode.map Prod.snd) .start = .ok (results, r) ∧
      Matches sampleImage r s :=
  compiled_run (fun _ => rfl) nestedCode_program

theorem compiled_no_garbage_nested : ∃ results s r,
    runAll (Op.run (roomy.toEnv fun _ => 0)) (nestedCode.map Prod.fst) .start = .ok (results, s) ∧
      runAll (RawOp.run sampleImage roomy) (nestedCode.map Prod.snd) .start = .ok (results, r) ∧
      ∀ a o, r.mem.objects a = some o → Justified s a :=
  compiled_no_garbage (fun _ => rfl) nestedCode_program

/-- The fresh memory holds other bytes. -/
theorem compiled_ignores_junk_nested : ∃ results r r',
    runAll (RawOp.run sampleImage roomy) (nestedCode.map Prod.snd) .start = .ok (results, r) ∧
      runAll (RawOp.run sampleImage { roomy with junk := fun k i => UInt8.ofNat (k + i + 1) })
        (nestedCode.map Prod.snd) .start = .ok (results, r') ∧
      r'.held = r.held ∧ r'.mem.trace = r.mem.trace ∧
      ∃ s, Matches sampleImage r s ∧ Matches sampleImage r' s :=
  compiled_ignores_junk (fun _ => rfl) rfl nestedCode_program

end BlocksRuntime.Raw
