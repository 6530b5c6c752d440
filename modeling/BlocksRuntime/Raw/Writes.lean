import BlocksRuntime.Raw.Copy

/-!
# The bytes that the runtime writes

Captured variables may be structures of any size, and there may be padding
between them.  The runtime must not touch what it does not own, whatever the
memory holds.

* `Writes W` says that objects stay where they are, and that only bytes in `W`
  change.  `Frees W` is the same for functions that free.
* `headerBytes` are the bytes of flags words and forwarding pointers, whatever
  kind the objects are of.  `writes_blockObjectAssignN` and
  `frees_blockObjectDisposeN` are the inductions over the depth of the calls.
* `runtimeBytes` are those bytes of blocks and of `__block` records.  On bytes
  that represent records, `runtime_writes` says that no others change.
-/

namespace BlocksRuntime.Raw

open RetryLoop ByteMemory StateFrame StateRefinement

/-! ## Sets of bytes -/

/-- Bytes, as objects and offsets. -/
abbrev Bytes := Set (Addr × Nat)

/-- The bytes in which a flags word or a forwarding pointer may be, whatever is
in the object. -/
def headerBytes : Bytes := {x | 8 ≤ x.2 ∧ x.2 < 20}

/-- The bytes of the flags words of the blocks, and of the forwarding pointers
and the flags words of the `__block` records. -/
def runtimeBytes (s : Mem) : Bytes :=
  {x | (s.blocks x.1 ≠ none ∧ 8 ≤ x.2 ∧ x.2 < 12) ∨ (s.byrefs x.1 ≠ none ∧ 8 ≤ x.2 ∧ x.2 < 20)}

def objectBytes (a : Addr) : Bytes := {x | x.1 = a}

def bytesAt (a : Addr) (off n : Nat) : Bytes := {x | x.1 = a ∧ off ≤ x.2 ∧ x.2 < off + n}

/-- The words that a list of calls stores into. -/
def fieldBytes (a : Addr) (fields : List (Nat × Flags)) : Bytes :=
  {x | ∃ f ∈ fields, x ∈ bytesAt a f.1 8}

theorem bytesAt_subset_object (a : Addr) (off n : Nat) : bytesAt a off n ⊆ objectBytes a :=
  fun _ hx => hx.1

theorem bytesAt_subset_header {a : Addr} {off n : Nat} (hlow : 8 ≤ off) (hhigh : off + n ≤ 20) :
    bytesAt a off n ⊆ headerBytes := by
  rintro x ⟨_, hx, hx'⟩
  exact ⟨hlow.trans hx, hx'.trans_le hhigh⟩

theorem fieldBytes_subset_object (a : Addr) (fields : List (Nat × Flags)) :
    fieldBytes a fields ⊆ objectBytes a := by
  rintro x ⟨f, _, hx⟩
  exact hx.1

/-! ## What changes -/

/-- Objects are at addresses that were handed out. -/
structure Allocated (r : RawMem) : Prop where
  pos : 0 < r.next
  null : r.objects NULL = none
  lt : ∀ a o, r.objects a = some o → a < r.next

/-- Two objects with the same size and the same bytes but those in `W`. -/
structure SameBytes (W : Bytes) (a : Addr) (o p : Object) : Prop where
  size : p.size = o.size
  byte : ∀ i, (a, i) ∉ W → p.byte i = o.byte i

theorem SameBytes.refl (W : Bytes) (a : Addr) (o : Object) : SameBytes W a o o :=
  ⟨rfl, fun _ _ => rfl⟩

theorem SameBytes.trans {W : Bytes} {a : Addr} {o p q : Object} (h : SameBytes W a o p)
    (h' : SameBytes W a p q) : SameBytes W a o q :=
  ⟨h'.size.trans h.size, fun i hi => (h'.byte i hi).trans (h.byte i hi)⟩

theorem SameBytes.mono {W V : Bytes} {a : Addr} {o p : Object} (h : SameBytes W a o p)
    (hsub : W ⊆ V) : SameBytes V a o p :=
  ⟨h.size, fun i hi => h.byte i fun hw => hi (hsub hw)⟩

/-- Objects are still there, and only bytes in `W` have changed. -/
structure Writes (W : Bytes) (r t : RawMem) : Prop where
  next : r.next ≤ t.next
  object : ∀ a o, r.objects a = some o → ∃ p, t.objects a = some p ∧ SameBytes W a o p

/-- Objects that are there were there before, and only bytes in `W` have
changed. -/
structure Frees (W : Bytes) (r t : RawMem) : Prop where
  next : r.next = t.next
  object : ∀ a p, t.objects a = some p → ∃ o, r.objects a = some o ∧ SameBytes W a o p

theorem writes_isFrame (W : Bytes) : IsFrame Allocated (Writes W) where
  refl r _ := ⟨Nat.le_refl _, fun a o ho => ⟨o, ho, SameBytes.refl W a o⟩⟩
  trans r t u _ h h' := by
    refine ⟨h.next.trans h'.next, fun a o ho => ?_⟩
    obtain ⟨p, hp, hop⟩ := h.object a o ho
    obtain ⟨q, hq, hpq⟩ := h'.object a p hp
    exact ⟨q, hq, hop.trans hpq⟩

theorem frees_isFrame (W : Bytes) : IsFrame Allocated (Frees W) where
  refl r _ := ⟨rfl, fun a p hp => ⟨p, hp, SameBytes.refl W a p⟩⟩
  trans r t u _ h h' := by
    refine ⟨h.next.trans h'.next, fun a q hq => ?_⟩
    obtain ⟨p, hp, hpq⟩ := h'.object a q hq
    obtain ⟨o, ho, hop⟩ := h.object a p hp
    exact ⟨o, ho, hop.trans hpq⟩

/-- The operation writes bytes in `W` only. -/
abbrev WritesOnly {β : Type} (W : Bytes) (x : RawM β) : Prop := Stays Allocated (Writes W) x

/-- The operation frees objects, and writes bytes in `W` only. -/
abbrev FreesOnly {β : Type} (W : Bytes) (x : RawM β) : Prop := Stays Allocated (Frees W) x

section

variable {W V : Bytes} {β γ : Type} {r t : RawMem} {a : Addr} {n off : Nat}

theorem WritesOnly.mono {x : RawM β} (h : WritesOnly W x) (hsub : W ⊆ V) : WritesOnly V x := by
  intro r b t hr hrun
  obtain ⟨ht, hw⟩ := h r b t hr hrun
  refine ⟨ht, hw.next, fun a o ho => ?_⟩
  obtain ⟨p, hp, hop⟩ := hw.object a o ho
  exact ⟨p, hp, hop.mono hsub⟩

theorem writes_pure (b : β) : WritesOnly W (pure b) := Stays.pure (writes_isFrame W) b

theorem writes_bind {x : RawM β} {f : β → RawM γ} (hx : WritesOnly W x)
    (hf : ∀ b, WritesOnly W (f b)) : WritesOnly W (x >>= f) := Stays.bind (writes_isFrame W) hx hf

theorem frees_pure (b : β) : FreesOnly W (pure b) := Stays.pure (frees_isFrame W) b

theorem frees_bind {x : RawM β} {f : β → RawM γ} (hx : FreesOnly W x)
    (hf : ∀ b, FreesOnly W (f b)) : FreesOnly W (x >>= f) := Stays.bind (frees_isFrame W) hx hf

/-! ### Reading -/

/-- An operation that changes no object. -/
def ReadsOnly (x : RawM β) : Prop :=
  ∀ r b t, x r = .ok (b, t) → t.objects = r.objects ∧ t.next = r.next

theorem Allocated.congr (hr : Allocated r) (hobjects : t.objects = r.objects)
    (hnext : t.next = r.next) : Allocated t where
  pos := hnext ▸ hr.pos
  null := hobjects ▸ hr.null
  lt := by
    rw [hobjects, hnext]
    exact hr.lt

theorem ReadsOnly.writes {x : RawM β} (h : ReadsOnly x) : WritesOnly W x := by
  intro r b t hr hrun
  obtain ⟨hobjects, hnext⟩ := h r b t hrun
  refine ⟨hr.congr hobjects hnext, hnext.ge, fun a o ho => ?_⟩
  exact ⟨o, by rw [hobjects, ho], SameBytes.refl W a o⟩

theorem ReadsOnly.frees {x : RawM β} (h : ReadsOnly x) : FreesOnly W x := by
  intro r b t hr hrun
  obtain ⟨hobjects, hnext⟩ := h r b t hrun
  refine ⟨hr.congr hobjects hnext, hnext.symm, fun a p hp => ?_⟩
  rw [hobjects] at hp
  exact ⟨p, hp, SameBytes.refl W a p⟩

theorem reads_pure (b : β) : ReadsOnly (pure b) := by
  intro r c t hrun
  obtain ⟨_, rfl⟩ := Prod.mk.inj (Except.ok.inj hrun)
  exact ⟨rfl, rfl⟩

theorem reads_bind {x : RawM β} {f : β → RawM γ} (hx : ReadsOnly x) (hf : ∀ b, ReadsOnly (f b)) :
    ReadsOnly (x >>= f) := by
  intro r c u hrun
  obtain ⟨b, t, hfirst, hrest⟩ := bind_eq_ok hrun
  obtain ⟨hobjects, hnext⟩ := hx r b t hfirst
  obtain ⟨hobjects', hnext'⟩ := hf b t c u hrest
  exact ⟨hobjects'.trans hobjects, hnext'.trans hnext⟩

theorem reads_ite {c : Prop} [Decidable c] {x y : RawM β} (hx : ReadsOnly x) (hy : ReadsOnly y) :
    ReadsOnly (if c then x else y) := by
  split
  · exact hx
  · exact hy

theorem reads_fault (e : Fault) : ReadsOnly (fault e : RawM β) := by
  intro r b t hrun
  cases hrun

theorem reads_log (e : Event) : ReadsOnly (log e) := by
  intro r b t hrun
  obtain ⟨_, rfl⟩ := Prod.mk.inj (Except.ok.inj hrun)
  exact ⟨rfl, rfl⟩

theorem reads_load (n : Nat) (a : Addr) (off : Nat) : ReadsOnly (load n a off) := by
  intro r b t hrun
  unfold load at hrun
  cases ho : r.objects a with
  | none =>
    simp only [ho] at hrun
    cases hrun
  | some o =>
    cases hv : o.load n off with
    | none =>
      simp only [ho, hv] at hrun
      cases hrun
    | some v =>
      simp only [ho, hv] at hrun
      obtain ⟨_, rfl⟩ := Prod.mk.inj (Except.ok.inj hrun)
      exact ⟨rfl, rfl⟩

theorem reads_load64 (a : Addr) (off : Nat) : ReadsOnly (load64 a off) := reads_load 8 a off

theorem reads_load32 (a : Addr) (off : Nat) : ReadsOnly (load32 a off) :=
  reads_bind (reads_load 4 a off) fun _ => reads_pure _

theorem reads_dataWord (im : Image) (a : Addr) (off : Nat) : ReadsOnly (dataWord im a off) := by
  unfold dataWord
  cases im.data a with
  | none => exact reads_fault _
  | some o =>
    simp only
    cases o.load 8 off with
    | none => exact reads_fault _
    | some v => exact reads_pure v

theorem reads_blockDescriptor2 (a : Addr) : ReadsOnly (blockDescriptor2 a) :=
  reads_bind (reads_load32 a 8) fun _ => reads_ite (reads_pure _)
    (reads_bind (reads_load64 a 24) fun _ => reads_pure _)

theorem writes_callCode {κ : Type} {code : Option κ} {f : κ → RawM Unit}
    (h : ∀ code, WritesOnly W (f code)) : WritesOnly W (callCode code f) := by
  cases code with
  | none => exact (reads_fault _).writes
  | some code => exact h code

theorem frees_callCode {κ : Type} {code : Option κ} {f : κ → RawM Unit}
    (h : ∀ code, FreesOnly W (f code)) : FreesOnly W (callCode code f) := by
  cases code with
  | none => exact (reads_fault _).frees
  | some code => exact h code

/-! ### Writing -/

/-- What a store does to the memory. -/
theorem store_inv {value : Nat} (h : store n a off value r = .ok ((), t)) :
    ∃ o p, r.objects a = some o ∧ t = r.setObject a p ∧ SameBytes (bytesAt a off n) a o p := by
  unfold store at h
  cases ho : r.objects a with
  | none =>
    simp only [ho] at h
    cases h
  | some o =>
    by_cases hroom : off + n ≤ o.size
    · obtain ⟨p, hp, hstored⟩ := Object.store_ok hroom value
      simp only [ho, hp] at h
      obtain ⟨_, rfl⟩ := Prod.mk.inj (Except.ok.inj h)
      refine ⟨o, p, rfl, rfl, hstored.size, fun i hi => hstored.rest i ?_⟩
      by_contra hin
      exact hi ⟨rfl, by omega, by omega⟩
    · have hnone : o.store n off value = none := if_neg hroom
      simp only [ho, hnone] at h
      cases h

theorem memmove_inv {src : Addr} {soff len : Nat} (h : memmove a off src soff len r = .ok ((), t)) :
    ∃ o p, r.objects a = some o ∧ t = r.setObject a p ∧
      SameBytes (bytesAt a off len) a o p := by
  unfold memmove at h
  cases ho : r.objects a with
  | none =>
    simp only [ho] at h
    cases h
  | some o =>
    cases hq : r.objects src with
    | none =>
      simp only [ho, hq] at h
      cases h
    | some q =>
      by_cases hroom : soff + len ≤ q.size ∧ off + len ≤ o.size
      · obtain ⟨p, hp, hblit⟩ := Object.blit_ok hroom.1 hroom.2
        simp only [ho, hq, hp] at h
        obtain ⟨_, rfl⟩ := Prod.mk.inj (Except.ok.inj h)
        refine ⟨o, p, rfl, rfl, hblit.size, fun i hi => hblit.rest i ?_⟩
        by_contra hin
        exact hi ⟨rfl, by omega, by omega⟩
      · have hnone : o.blit off q soff len = none := if_neg hroom
        simp only [ho, hq, hnone] at h
        cases h

theorem Writes.setObject {o p : Object} (hr : Allocated r) (ho : r.objects a = some o)
    (hop : SameBytes W a o p) : Allocated (r.setObject a p) ∧ Writes W r (r.setObject a p) := by
  have hlt := hr.lt a o ho
  have hnull : a ≠ NULL := fun h => Option.some_ne_none o (ho.symm.trans (h ▸ hr.null))
  refine ⟨⟨hr.pos, ?_, fun b q hq => ?_⟩, Nat.le_refl _, fun b q hq => ?_⟩
  · rw [setObject_ne r p hnull.symm]
    exact hr.null
  · by_cases hba : b = a
    · exact hba ▸ hlt
    · rw [setObject_ne r p hba] at hq
      exact hr.lt b q hq
  · by_cases hba : b = a
    · subst hba
      obtain rfl := Option.some.inj (ho.symm.trans hq)
      exact ⟨p, setObject_self r b p, hop⟩
    · exact ⟨q, (setObject_ne r p hba).trans hq, SameBytes.refl W b q⟩

theorem Frees.setObject {o p : Object} (ho : r.objects a = some o) (hop : SameBytes W a o p) :
    Frees W r (r.setObject a p) := by
  refine ⟨rfl, fun b q hq => ?_⟩
  by_cases hba : b = a
  · subst hba
    obtain rfl := Option.some.inj ((setObject_self r b p).symm.trans hq)
    exact ⟨o, ho, hop⟩
  · rw [setObject_ne r p hba] at hq
    exact ⟨q, hq, SameBytes.refl W b q⟩

theorem writes_store (hsub : bytesAt a off n ⊆ W) (value : Nat) :
    WritesOnly W (store n a off value) := by
  intro r b t hr hrun
  obtain ⟨o, p, ho, rfl, hop⟩ := store_inv hrun
  exact Writes.setObject hr ho (hop.mono hsub)

theorem writes_memmove {src : Addr} {soff len : Nat} (hsub : bytesAt a off len ⊆ W) :
    WritesOnly W (memmove a off src soff len) := by
  intro r b t hr hrun
  obtain ⟨o, p, ho, rfl, hop⟩ := memmove_inv hrun
  exact Writes.setObject hr ho (hop.mono hsub)

theorem frees_store (hsub : bytesAt a off n ⊆ W) (value : Nat) :
    FreesOnly W (store n a off value) := by
  intro r b t hr hrun
  obtain ⟨o, p, ho, rfl, hop⟩ := store_inv hrun
  exact ⟨(Writes.setObject hr ho hop).1, Frees.setObject ho (hop.mono hsub)⟩

theorem writes_loopFlags {ρ : Type} {loop : Flags → Attempt Flags ρ}
    (hsub : bytesAt a off 4 ⊆ W) : WritesOnly W (loopFlags a off loop) := by
  refine writes_bind (reads_load32 a off).writes fun oldValue => ?_
  cases loop oldValue with
  | exit result => exact writes_pure result
  | cas newValue result => exact writes_bind (writes_store hsub _) fun _ => writes_pure result

theorem frees_loopFlags {ρ : Type} {loop : Flags → Attempt Flags ρ}
    (hsub : bytesAt a off 4 ⊆ W) : FreesOnly W (loopFlags a off loop) := by
  refine frees_bind (reads_load32 a off).frees fun oldValue => ?_
  cases loop oldValue with
  | exit result => exact frees_pure result
  | cas newValue result => exact frees_bind (frees_store hsub _) fun _ => frees_pure result

theorem Allocated.erase (hr : Allocated r) (a : Addr) : Allocated (r.erase a) := by
  have hsub : ∀ b o, (r.erase a).objects b = some o → r.objects b = some o := by
    intro b o ho
    by_cases hba : b = a
    · rw [hba] at ho
      simp [RawMem.erase] at ho
    · exact (erase_ne r hba).symm.trans ho
  refine ⟨hr.pos, ?_, fun b o ho => hr.lt b o (hsub b o ho)⟩
  by_contra hne
  obtain ⟨o, ho⟩ := Option.ne_none_iff_exists'.1 hne
  exact Option.some_ne_none o ((hsub NULL o ho).symm.trans hr.null)

theorem frees_free (e : Event) (a : Addr) : FreesOnly W (free e a) := by
  intro r b t hr hrun
  unfold free at hrun
  cases ho : r.objects a with
  | none =>
    simp only [ho] at hrun
    cases hrun
  | some o =>
    simp only [ho] at hrun
    obtain ⟨_, rfl⟩ := Prod.mk.inj (Except.ok.inj hrun)
    refine ⟨(hr.erase a).congr rfl rfl, rfl, fun b p hp => ?_⟩
    by_cases hba : b = a
    · rw [hba] at hp
      simp [RawMem.erase] at hp
    · exact ⟨p, (erase_ne r hba).symm.trans hp, SameBytes.refl W b p⟩

/-- Nobody can tell which bytes of a new object are written. -/
theorem writes_malloc {env : RawEnv} {size : Nat} {f : Addr → RawM β}
    (hf : ∀ v, WritesOnly (W ∪ objectBytes v) (f v)) :
    WritesOnly W (malloc env size >>= f) := by
  intro r b u hr hrun
  obtain ⟨v, t, hmalloc, hrest⟩ := bind_eq_ok hrun
  -- no object is at the address that `malloc` returns
  obtain ⟨ht, hnext, hv, hold⟩ : Allocated t ∧ r.next ≤ t.next ∧ r.objects v = none ∧
      ∀ a o, r.objects a = some o → t.objects a = some o := by
    unfold malloc at hmalloc
    by_cases hok : env.mallocOk r.mallocs = true
    · rw [if_pos hok] at hmalloc
      obtain ⟨rfl, rfl⟩ := Prod.mk.inj (Except.ok.inj hmalloc)
      have hnew : r.objects r.next = none := by
        by_contra hne
        obtain ⟨o, ho⟩ := Option.ne_none_iff_exists'.1 hne
        exact Nat.lt_irrefl _ (hr.lt _ o ho)
      have hold : ∀ a, a ≠ r.next → ∀ p, (r.setObject r.next p).objects a = r.objects a :=
        fun a ha p => setObject_ne r p ha
      refine ⟨⟨Nat.succ_pos _, (hold NULL hr.pos.ne _).trans hr.null, fun a o ho => ?_⟩,
        Nat.le_succ _, hnew, fun a o ho => (hold a (hr.lt a o ho).ne _).trans ho⟩
      by_cases ha : a = r.next
      · exact ha ▸ Nat.lt_succ_self _
      · exact Nat.lt_succ_of_lt (hr.lt a o ((hold a ha _).symm.trans ho))
    · rw [if_neg hok] at hmalloc
      obtain ⟨rfl, rfl⟩ := Prod.mk.inj (Except.ok.inj hmalloc)
      exact ⟨⟨hr.pos, hr.null, hr.lt⟩, Nat.le_refl _, hr.null, fun _ _ ho => ho⟩
  obtain ⟨hu, hw⟩ := hf v t b u ht hrest
  refine ⟨hu, hnext.trans hw.next, fun a o ho => ?_⟩
  obtain ⟨p, hp, hop⟩ := hw.object a o (hold a o ho)
  have hne : a ≠ v := fun h => Option.some_ne_none o (ho.symm.trans (h ▸ hv))
  exact ⟨p, hp, hop.size, fun i hi => hop.byte i fun hin => hin.elim hi hne⟩

end

/-! ## Copying -/

section

variable {im : Image} {env : RawEnv} {W : Bytes}

theorem writes_blockCallCopyHelper {raw : List (Nat × Flags) → Addr → Addr → RawM Unit}
    {result aBlock : Addr} (hhelper : ∀ fields, WritesOnly W (raw fields result aBlock)) :
    WritesOnly W (blockCallCopyHelper im raw result aBlock) := by
  refine writes_bind (reads_blockDescriptor2 aBlock).writes fun desc => ?_
  cases desc with
  | none => exact writes_pure ()
  | some desc =>
    exact writes_bind (reads_dataWord im _ _).writes fun copy =>
      writes_bind (reads_log _).writes fun _ => writes_callCode hhelper

theorem writes_blockCopyBody {raw : List (Nat × Flags) → Addr → Addr → RawM Unit}
    (hhelper : ∀ fields dst src, WritesOnly (headerBytes ∪ objectBytes dst) (raw fields dst src))
    (a : Addr) : WritesOnly headerBytes (blockCopyBody im env raw a) := by
  have hincr : WritesOnly headerBytes (do
      let _ ← loopFlags a 8 latchingIncrInt
      return a : RawM Addr) :=
    writes_bind (writes_loopFlags (bytesAt_subset_header (by decide) (by decide))) fun _ =>
      writes_pure a
  refine Stays.ite (writes_pure _) (writes_bind (reads_load32 a 8).writes fun _ =>
    Stays.ite hincr (writes_bind (reads_load32 a 8).writes fun _ => Stays.ite (writes_pure _)
    (writes_bind (reads_load64 a 24).writes fun _ => writes_bind (reads_dataWord im _ _).writes
    fun _ => writes_malloc fun result => Stays.ite (writes_pure _) ?_)))
  -- everything else is stored into the new object
  have hnew : ∀ off n, bytesAt result off n ⊆ headerBytes ∪ objectBytes result := fun off n =>
    (bytesAt_subset_object result off n).trans Set.subset_union_right
  refine writes_bind (reads_log _).writes fun _ => writes_bind (reads_load64 a 24).writes fun _ =>
    writes_bind (reads_dataWord im _ _).writes fun _ => writes_bind (writes_memmove (hnew _ _))
    fun _ => ?_
  refine writes_bind (reads_load32 result 8).writes fun _ => writes_bind (writes_store (hnew _ _) _)
    fun _ => writes_bind (reads_load32 result 8).writes fun _ =>
    writes_bind (writes_store (hnew _ _) _) fun _ => ?_
  exact writes_bind (writes_blockCallCopyHelper fun fields => hhelper fields result a) fun _ =>
    writes_bind (writes_store (hnew _ _) _) fun _ => writes_pure result

theorem writes_blockByrefCopyBody {raw : KeepCode → Addr → Addr → RawM Unit}
    (hkeep : ∀ code dst src, WritesOnly (headerBytes ∪ objectBytes dst) (raw code dst src))
    (a : Addr) : WritesOnly headerBytes (blockByrefCopyBody im env raw a) := by
  refine writes_bind (reads_load64 a 8).writes fun forwarding =>
    writes_bind (reads_load32 _ 16).writes fun _ => Stays.ite ?_ ?_
  · refine writes_bind (reads_load32 a 20).writes fun _ => writes_malloc fun copy => ?_
    have hnew : ∀ off n, bytesAt copy off n ⊆ headerBytes ∪ objectBytes copy := fun off n =>
      (bytesAt_subset_object copy off n).trans Set.subset_union_right
    have hforward : bytesAt a 8 8 ⊆ headerBytes ∪ objectBytes copy :=
      (bytesAt_subset_header (by decide) (by decide)).trans Set.subset_union_left
    have hreturn : WritesOnly (headerBytes ∪ objectBytes copy) (load64 a 8) :=
      (reads_load64 a 8).writes
    refine writes_bind (reads_log _).writes fun _ => writes_bind (writes_store (hnew _ _) _)
      fun _ => writes_bind (reads_load32 a 16).writes fun _ =>
      writes_bind (writes_store (hnew _ _) _) fun _ => writes_bind (writes_store (hnew _ _) _)
      fun _ => writes_bind (writes_store hforward _) fun _ =>
      writes_bind (reads_load32 a 20).writes fun _ => writes_bind (writes_store (hnew _ _) _)
      fun _ => writes_bind (reads_load32 a 16).writes fun _ => Stays.ite ?_ ?_
    · have hcall : WritesOnly (headerBytes ∪ objectBytes copy) (do
          let byrefKeepFn ← load64 a 24
          log (.byrefKeep copy)
          callCode (im.keepCode byrefKeepFn) fun code => raw code copy a
          load64 a 8 : RawM Addr) :=
        writes_bind (reads_load64 a 24).writes fun _ => writes_bind (reads_log _).writes fun _ =>
          writes_bind (writes_callCode fun code => hkeep code copy a) fun _ => hreturn
      refine writes_bind (reads_load64 a 24).writes fun _ => writes_bind (writes_store (hnew _ _) _)
        fun _ => writes_bind (reads_load64 a 32).writes fun _ =>
        writes_bind (writes_store (hnew _ _) _) fun _ =>
        writes_bind (reads_load32 a 16).writes fun _ => Stays.ite ?_ hcall
      exact writes_bind (reads_load64 a 40).writes fun _ =>
        writes_bind (writes_store (hnew _ _) _) fun _ => hcall
    · exact writes_bind (reads_load32 a 20).writes fun _ => writes_bind (writes_memmove (hnew _ _))
        fun _ => hreturn
  · have hreturn : WritesOnly headerBytes (load64 a 8) := (reads_load64 a 8).writes
    refine writes_bind (reads_load64 a 8).writes fun _ => writes_bind (reads_load32 _ 16).writes
      fun _ => Stays.ite (writes_bind (reads_load64 a 8).writes fun _ => ?_) hreturn
    exact writes_bind (writes_loopFlags (bytesAt_subset_header (by decide) (by decide)))
      fun _ => hreturn

/-- The calls of a copy helper. -/
theorem writes_copyHelper {assign : Addr → Nat → Addr → Flags → RawM Unit}
    (hassign : ∀ dest off object flags,
      WritesOnly (headerBytes ∪ bytesAt dest off 8) (assign dest off object flags))
    (fields : List (Nat × Flags)) (dst src : Addr) :
    WritesOnly (headerBytes ∪ fieldBytes dst fields) (copyHelper assign fields dst src) := by
  induction fields with
  | nil => exact writes_pure ()
  | cons field fields ih =>
    have hfirst : headerBytes ∪ bytesAt dst field.1 8 ⊆
        headerBytes ∪ fieldBytes dst (field :: fields) :=
      Set.union_subset_union_right _ fun x hx => ⟨field, List.mem_cons_self, hx⟩
    have hrest : headerBytes ∪ fieldBytes dst fields ⊆
        headerBytes ∪ fieldBytes dst (field :: fields) := by
      refine Set.union_subset_union_right _ ?_
      rintro x ⟨f, hf, hx⟩
      exact ⟨f, List.mem_cons_of_mem field hf, hx⟩
    exact writes_bind (reads_load64 src _).writes fun object =>
      writes_bind ((hassign dst field.1 object field.2).mono hfirst) fun _ => ih.mono hrest

theorem writes_blockObjectAssignBody {retainObject : Addr → RawM Unit}
    {blockCopy blockByrefCopy : Addr → RawM Addr} (hretain : ∀ o, ReadsOnly (retainObject o))
    (hcopy : ∀ a, WritesOnly headerBytes (blockCopy a))
    (hbyref : ∀ a, WritesOnly headerBytes (blockByrefCopy a)) (dest : Addr) (off : Nat)
    (object : Addr) (flags : Flags) :
    WritesOnly (headerBytes ∪ bytesAt dest off 8)
      (blockObjectAssignBody retainObject blockCopy blockByrefCopy dest off object flags) := by
  have hstore : ∀ value, WritesOnly (headerBytes ∪ bytesAt dest off 8) (store64 dest off value) :=
    fun value => writes_store Set.subset_union_right value
  have hcall : ∀ {x : RawM Addr}, WritesOnly headerBytes x →
      WritesOnly (headerBytes ∪ bytesAt dest off 8) (do
        let copy ← x
        store64 dest off copy) := fun hx =>
    writes_bind (hx.mono Set.subset_union_left) hstore
  exact Stays.ite (writes_bind (hretain object).writes fun _ => hstore object)
    (Stays.ite (hcall (hcopy object)) (Stays.ite (hcall (hbyref object))
      (Stays.ite (hstore object) (Stays.ite (hstore object) (writes_pure ())))))

/-- `_Block_object_assign`, to any depth. -/
theorem writes_blockObjectAssignN (im : Image) (env : RawEnv) (n : Nat) (dest : Addr) (off : Nat)
    (object : Addr) (flags : Flags) :
    WritesOnly (headerBytes ∪ bytesAt dest off 8)
      (blockObjectAssignN im env n dest off object flags) := by
  induction n generalizing dest off object flags with
  | zero => exact (reads_fault _).writes
  | succ n ih =>
    have hdest : ∀ dst off, headerBytes ∪ bytesAt dst off 8 ⊆ headerBytes ∪ objectBytes dst :=
      fun dst off => Set.union_subset_union_right _ (bytesAt_subset_object dst off 8)
    have hcopy : ∀ a, WritesOnly headerBytes (blockCopyN im env n a) :=
      writes_blockCopyBody fun fields dst src => (writes_copyHelper ih fields dst src).mono
        (Set.union_subset_union_right _ (fieldBytes_subset_object dst fields))
    have hkeep : ∀ code dst src, WritesOnly (headerBytes ∪ objectBytes dst)
        (byrefKeepHelper (blockObjectAssignN im env n) (blockCopyN im env n) code dst src) := by
      intro code dst src
      cases code with
      | assign off flags =>
        exact writes_bind (reads_load64 src off).writes fun object =>
          (ih dst off object flags).mono (hdest dst off)
      | copy off =>
        exact writes_bind (reads_load64 src off).writes fun object =>
          writes_bind ((hcopy object).mono Set.subset_union_left) fun value =>
          writes_store ((bytesAt_subset_object dst off 8).trans Set.subset_union_right) value
    exact writes_blockObjectAssignBody (fun _ => reads_log _) hcopy
      (writes_blockByrefCopyBody hkeep) dest off object flags

theorem writes_blockCopyN (im : Image) (env : RawEnv) (n : Nat) (a : Addr) :
    WritesOnly headerBytes (blockCopyN im env n a) :=
  writes_blockCopyBody (fun fields dst src =>
    (writes_copyHelper (writes_blockObjectAssignN im env n) fields dst src).mono
      (Set.union_subset_union_right _ (fieldBytes_subset_object dst fields))) a

end

/-! ## Releasing -/

section

variable {im : Image} {W : Bytes}

theorem frees_blockReleaseBody {raw : List (Nat × Flags) → Addr → RawM Unit}
    (hhelper : ∀ fields a, FreesOnly headerBytes (raw fields a)) (a : Addr) :
    FreesOnly headerBytes (blockReleaseBody im raw a) := by
  have hcall : FreesOnly headerBytes (blockCallDisposeHelper im raw a) := by
    refine frees_bind (reads_blockDescriptor2 a).frees fun desc => ?_
    cases desc with
    | none => exact frees_pure ()
    | some desc =>
      exact frees_bind (reads_dataWord im _ _).frees fun dispose =>
        frees_bind (reads_log _).frees fun _ => frees_callCode fun fields => hhelper fields a
  have hdecr : FreesOnly headerBytes (loopFlags a 8 latchingDecrIntShouldDeallocate) :=
    frees_loopFlags (bytesAt_subset_header (by decide) (by decide))
  refine Stays.ite (frees_pure _) (frees_bind (reads_load32 a 8).frees fun _ =>
    Stays.ite (frees_pure _) (frees_bind (reads_load32 a 8).frees fun _ =>
    Stays.ite (frees_pure _) (frees_bind hdecr fun _ => Stays.ite ?_ (frees_pure _))))
  exact frees_bind hcall fun _ => frees_bind (reads_log _).frees fun _ => frees_free _ a

theorem frees_blockByrefReleaseBody {raw : DestroyCode → Addr → RawM Unit}
    (hdestroy : ∀ code a, FreesOnly headerBytes (raw code a)) (a : Addr) :
    FreesOnly headerBytes (blockByrefReleaseBody im raw a) := by
  refine frees_bind (reads_load64 a 8).frees fun byref =>
    frees_bind (reads_load32 byref 16).frees fun _ => Stays.ite ?_ (frees_pure _)
  have hdealloc : FreesOnly headerBytes (do
      let flags ← load32 byref 16
      if flags &&& BLOCK_BYREF_HAS_COPY_DISPOSE ≠ 0 then
        let byrefDestroyFn ← load64 byref 32
        log (.byrefDestroy byref)
        callCode (im.destroyCode byrefDestroyFn) fun code => raw code byref
      free (.freeByref byref) byref : RawM Unit) := by
    refine frees_bind (reads_load32 byref 16).frees fun _ => Stays.ite ?_ (frees_free _ byref)
    exact frees_bind (reads_load64 byref 32).frees fun _ => frees_bind (reads_log _).frees fun _ =>
      frees_bind (frees_callCode fun code => hdestroy code byref) fun _ => frees_free _ byref
  have hloop : FreesOnly headerBytes (do
      if ← loopFlags byref 16 latchingDecrIntShouldDeallocate then
        let flags ← load32 byref 16
        if flags &&& BLOCK_BYREF_HAS_COPY_DISPOSE ≠ 0 then
          let byrefDestroyFn ← load64 byref 32
          log (.byrefDestroy byref)
          callCode (im.destroyCode byrefDestroyFn) fun code => raw code byref
        free (.freeByref byref) byref : RawM Unit) :=
    frees_bind (frees_loopFlags (bytesAt_subset_header (by decide) (by decide))) fun _ =>
      Stays.ite hdealloc (frees_pure _)
  exact frees_bind (reads_load32 byref 16).frees fun _ =>
    Stays.ite (frees_bind (reads_fault _).frees fun _ => hloop) hloop

theorem frees_disposeHelper {dispose : Addr → Flags → RawM Unit}
    (hdispose : ∀ object flags, FreesOnly W (dispose object flags))
    (fields : List (Nat × Flags)) (src : Addr) :
    FreesOnly W (disposeHelper dispose fields src) := by
  induction fields with
  | nil => exact frees_pure ()
  | cons field fields ih =>
    exact frees_bind (reads_load64 src _).frees fun object =>
      frees_bind (hdispose object field.2) fun _ => ih

/-- `_Block_object_dispose`, to any depth. -/
theorem frees_blockObjectDisposeN (im : Image) (n : Nat) (object : Addr) (flags : Flags) :
    FreesOnly headerBytes (blockObjectDisposeN im n object flags) := by
  induction n generalizing object flags with
  | zero => exact (reads_fault _).frees
  | succ n ih =>
    have hrelease : ∀ a, FreesOnly headerBytes (blockReleaseN im n a) :=
      frees_blockReleaseBody (frees_disposeHelper ih)
    have hdestroy : ∀ code a, FreesOnly headerBytes
        (byrefDestroyHelper (blockObjectDisposeN im n) (blockReleaseN im n) code a) := by
      intro code a
      cases code with
      | dispose off flags => exact frees_bind (reads_load64 a off).frees fun o => ih o flags
      | release off => exact frees_bind (reads_load64 a off).frees hrelease
    exact Stays.ite (frees_blockByrefReleaseBody hdestroy object)
      (Stays.ite (hrelease object) (Stays.ite (reads_log _).frees (frees_pure ())))

theorem frees_blockReleaseN (im : Image) (n : Nat) (a : Addr) :
    FreesOnly headerBytes (blockReleaseN im n a) :=
  frees_blockReleaseBody (frees_disposeHelper (frees_blockObjectDisposeN im n)) a

end

/-! ## The kinds of the objects -/

section

variable {im : Image} {V : Set Addr} {W : Bytes} {r u v : RawMem} {s t : Mem} {a : Addr}
  {c d : BlockCell} {o p : Object} {i : Nat}

theorem Represents.allocated (h : Represents im ∅ r s) : Allocated r where
  pos := h.next ▸ h.placed.pos
  null := by
    cases ho : r.objects NULL with
    | none => rfl
    | some o =>
      rcases h.holds ho with ⟨c, hc⟩ | ⟨c, hc⟩
      · exact absurd rfl (h.placed.ne_null hc)
      · exact absurd rfl (h.placed.byref_ne_null hc)
  lt a o ho := by
    rw [h.next]
    rcases h.holds ho with ⟨c, hc⟩ | ⟨c, hc⟩
    · exact h.placed.block_lt a c hc
    · exact h.placed.byref_lt a c hc

/-- The bytes behind the flags word of a block, up to the descriptor pointer,
are `reserved` and `invoke`. -/
theorem code_byte (ho : BlockBytes im c.layout o) (hp : BlockBytes im d.layout p)
    (h : SameCode c d) (hlow : 12 ≤ i) (hhigh : i < 20) : p.byte i = o.byte i := by
  by_cases hi : i < 16
  · have hreserved : p.field 4 12 = o.field 4 12 := by rw [hp.reserved, h.reserved, ho.reserved]
    exact Object.byte_of_field hreserved hlow hi
  · have hinvoke : p.field 8 16 = o.field 8 16 := by rw [hp.invoke, h.invoke, ho.invoke]
    exact Object.byte_of_field hinvoke (by omega) (by omega)

/-- An object that has kept its code, if it is a block. -/
theorem SameBytes.typed (hsame : SameBytes (headerBytes ∪ W) a o p) (h : Represents im ∅ r s)
    (ho : r.objects a = some o)
    (hcode : ∀ c, s.blocks a = some c → ∀ i, 12 ≤ i → i < 20 → (a, i) ∉ W → p.byte i = o.byte i) :
    SameBytes (runtimeBytes s ∪ W) a o p := by
  refine ⟨hsame.size, fun i hi => ?_⟩
  have hW : (a, i) ∉ W := fun hw => hi (Or.inr hw)
  by_cases hheader : 8 ≤ i ∧ i < 20
  · rcases h.holds ho with ⟨c, hc⟩ | ⟨c, hc⟩
    · have hb : s.blocks a ≠ none := Option.ne_none_iff_exists'.2 ⟨c, hc⟩
      refine hcode c hc i ?_ hheader.2 hW
      by_contra hlt
      exact hi (Or.inl (Or.inl ⟨hb, hheader.1, not_le.1 hlt⟩))
    · have hy : s.byrefs a ≠ none := Option.ne_none_iff_exists'.2 ⟨c, hc⟩
      exact absurd (Or.inl (Or.inr ⟨hy, hheader⟩)) hi
  · exact hsame.byte i fun hx => hx.elim hheader hW

/-- A call of a function that copies has written what it may.  `hlast` is what
it stores at the end. -/
theorem Writes.typed (hw : Writes (headerBytes ∪ W) r v) (h : Represents im ∅ r s)
    (hend : Represents im V u t) (hkept : Kept none s t) (hlast : Writes W u v) :
    Writes (runtimeBytes s ∪ W) r v := by
  refine ⟨hw.next, fun a o ho => ?_⟩
  obtain ⟨p, hp, hsame⟩ := hw.object a o ho
  refine ⟨p, hp, hsame.typed h ho fun c hc i hlow hhigh hi => ?_⟩
  obtain ⟨d, hd, hcode⟩ := hkept.code a c hc
  obtain ⟨q, hq, hb⟩ := hend.block a d hd
  obtain ⟨p', hp', hqp⟩ := hlast.object a q hq
  obtain rfl : p = p' := Option.some.inj (hp.symm.trans hp')
  exact (hqp.byte i hi).trans (code_byte (h.blockBytes hc ho) hb hcode hlow hhigh)

/-- A call of a function that releases has written what it may. -/
theorem Frees.typed (hf : Frees headerBytes r u) (h : Represents im ∅ r s)
    (hend : Represents im ∅ u t) (hdropped : Dropped s t) : Frees (runtimeBytes s) r u := by
  refine ⟨hf.next, fun a p hp => ?_⟩
  obtain ⟨o, ho, hsame⟩ := hf.object a p hp
  have htyped : SameBytes (runtimeBytes s ∪ ∅) a o p := by
    refine (hsame.mono Set.subset_union_left).typed h ho fun c hc i hlow hhigh _ => ?_
    -- what is still there is a block
    rcases hend.holds hp with ⟨d, hd⟩ | ⟨d, hd⟩
    · obtain ⟨c', hc', _, hcode⟩ := hdropped.block a d hd
      obtain rfl : c = c' := Option.some.inj (hc.symm.trans hc')
      exact code_byte (h.blockBytes hc ho) (hend.blockBytes hd hp) hcode hlow hhigh
    · rw [hdropped.byref a (h.placed.disjoint a c hc)] at hd
      cases hd
  rw [Set.union_empty] at htyped
  exact ⟨o, ho, htyped⟩

end

theorem writes_storeResult (dest : Addr) (off : Nat) (value : Option Word) :
    WritesOnly (bytesAt dest off 8) (storeResult dest off value) := by
  cases value with
  | none => exact writes_pure ()
  | some value => exact writes_store Set.Subset.rfl value

/-- Whatever the counts, and however deep the helpers nest: when a call returns
on records, it writes the flags words of blocks, the forwarding pointers and the
flags words of `__block` records, the word that a helper asks for, and new
objects. -/
theorem runtime_writes {im : Image} (env : RawEnv) (junk : Nat → Word) (n : Nat) {r : RawMem}
    {s : Mem} (h : Represents im ∅ r s) :
    (∀ a b t u, BlocksRuntime.blockCopyN (env.toEnv junk) n a s = .ok (b, t) → Addressable t →
      blockCopyN im env n a r = .ok (b, u) → Writes (runtimeBytes s) r u) ∧
    (∀ dest off object flags value t u, object < addressLimit →
      BlocksRuntime.blockObjectAssignN (env.toEnv junk) n object flags s = .ok (value, t) →
      Addressable t → blockObjectAssignN im env n dest off object flags r = .ok ((), u) →
      Writes (runtimeBytes s ∪ bytesAt dest off 8) r u) ∧
    (∀ a t u, BlocksRuntime.blockReleaseN n a s = .ok ((), t) →
      blockReleaseN im n a r = .ok ((), u) → Frees (runtimeBytes s) r u) ∧
    ∀ object flags t u, BlocksRuntime.blockObjectDisposeN n object flags s = .ok ((), t) →
      blockObjectDisposeN im n object flags r = .ok ((), u) → Frees (runtimeBytes s) r u := by
  have hr := h.allocated
  refine ⟨fun a b t u hrun hlimit hraw => ?_,
    fun dest off object flags value t u hobject hrun hlimit hraw => ?_,
    fun a t u hrun hraw => ?_, fun object flags t u hrun hraw => ?_⟩
  · obtain ⟨v, hv, hend⟩ := implements_blockCopyN im env junk n ∅ a r s b t h hrun hlimit
    obtain ⟨_, rfl⟩ := Prod.mk.inj (Except.ok.inj (hv.symm.trans hraw))
    obtain ⟨_, hkept⟩ := keeps_blockCopyN _ n a s b t h.placed.bounded hrun
    have hw := (writes_blockCopyN im env n a r b v hr hraw).2
    rw [← Set.union_empty (runtimeBytes s)]
    rw [← Set.union_empty headerBytes] at hw
    exact hw.typed h hend hkept ((writes_isFrame ∅).refl v hend.allocated)
  · obtain ⟨v, hend, _, hstore⟩ :=
      assignsLike_blockObjectAssignN im env junk n ∅ r s object flags value t h hobject hrun hlimit
    obtain ⟨_, hkept⟩ := keeps_blockObjectAssignN _ n object flags s value t h.placed.bounded hrun
    have hw := (writes_blockObjectAssignN im env n dest off object flags r () u hr hraw).2
    have hlast := (writes_storeResult dest off value v () u hend.allocated
      ((hstore dest off).symm.trans hraw)).2
    exact hw.typed h hend hkept hlast
  · obtain ⟨v, hv, hend⟩ := releases_blockReleaseN im n a r s () t h hrun trivial
    obtain ⟨_, rfl⟩ := Prod.mk.inj (Except.ok.inj (hv.symm.trans hraw))
    have hdropped := (drops_blockReleaseN n a s () t trivial hrun).2
    exact (frees_blockReleaseN im n a r () v hr hraw).2.typed h hend hdropped
  · obtain ⟨v, hv, hend⟩ := releases_blockObjectDisposeN im n object flags r s () t h hrun trivial
    obtain ⟨_, rfl⟩ := Prod.mk.inj (Except.ok.inj (hv.symm.trans hraw))
    have hdropped := (drops_blockObjectDisposeN n object flags s () t trivial hrun).2
    exact (frees_blockObjectDisposeN im n object flags r () v hr hraw).2.typed h hend hdropped

theorem allocated_empty : Allocated RawMem.empty := ⟨Nat.one_pos, rfl, fun _ _ ho => by cases ho⟩

theorem Allocated.create {r : RawMem} (h : Allocated r) (o : Object) : Allocated (r.create o) := by
  refine ⟨Nat.succ_pos _, (setObject_ne r o h.pos.ne).trans h.null, fun b q hq => ?_⟩
  by_cases hb : b = r.next
  · exact hb ▸ Nat.lt_succ_self _
  · exact Nat.lt_succ_of_lt (h.lt b q ((setObject_ne r o hb).symm.trans hq))

/-- The outer block is copied, on records and on bytes. -/
theorem nestedBytes_copied : ∃ t u,
    BlocksRuntime.blockCopyN (roomy.toEnv fun _ => 0) 4 3 nested = .ok (4, t) ∧ Addressable t ∧
      blockCopyN sampleImage roomy 4 3 nestedBytes = .ok (4, u) := by
  obtain ⟨t, hrun, hnext⟩ : ∃ t,
      BlocksRuntime.blockCopyN (roomy.toEnv fun _ => 0) 4 3 nested = .ok (4, t) ∧ t.next = 7 :=
    ⟨_, rfl, rfl⟩
  have hlimit : t.next ≤ addressLimit := hnext ▸ (by decide)
  obtain ⟨u, hu, _⟩ := implements_blockCopyN sampleImage roomy (fun _ => 0) 4 ∅ 3 nestedBytes nested
    4 t nestedBytes_represent hrun hlimit
  exact ⟨t, u, hrun, hlimit, hu⟩

theorem runtime_writes_nested : ∃ u, blockCopyN sampleImage roomy 4 3 nestedBytes = .ok (4, u) ∧
    Writes (runtimeBytes nested) nestedBytes u := by
  obtain ⟨t, u, hrun, hlimit, hraw⟩ := nestedBytes_copied
  obtain ⟨hcopy, _⟩ := runtime_writes roomy (fun _ => 0) 4 nestedBytes_represent
  exact ⟨u, hraw, hcopy 3 4 t u hrun hlimit hraw⟩

/-! ## A copy, byte for byte -/

section

variable {im : Image} {env : RawEnv} {U : Set Addr} {r u : RawMem} {s : Mem} {a b dst : Addr}
  {c : BlockCell} {n : Nat}

/-- The copy helper of a block stores into the captured variables that need
help. -/
theorem writes_ownCopyHelper {o : Object} (ho : r.objects a = some o)
    (hb : BlockBytes im c.layout o) (hok : c.Ok a) (hr : Allocated r)
    (hrun : blockCallCopyHelper im (copyHelper (blockObjectAssignN im env n)) dst a r =
      .ok ((), u)) :
    Writes (headerBytes ∪ fieldBytes dst (helperFields 0 c.layout.captured)) r u := by
  by_cases hhas : c.layout.flags &&& BLOCK_HAS_COPY_DISPOSE = 0
  · rw [hb.copyHelper_none ho hhas] at hrun
    obtain ⟨_, rfl⟩ := Prod.mk.inj (Except.ok.inj hrun)
    exact (writes_isFrame _).refl r hr
  · have hlength := hok.descriptor hhas
    obtain ⟨copy, hcopy⟩ : ∃ w, c.layout.descriptor[2]? = some w :=
      ⟨_, List.getElem?_eq_getElem (by omega)⟩
    rw [hb.copyHelper_run ho hhas hcopy] at hrun
    have hlogged : Allocated { r with trace := r.trace ++ [.copyHelper copy dst] } :=
      hr.congr rfl rfl
    obtain ⟨_, hnext, hobject⟩ :=
      writes_copyHelper (writes_blockObjectAssignN im env n) _ dst a _ _ _ hlogged hrun
    exact ⟨hnext, hobject⟩

/-- The code of the copy, when the call returns on records. -/
theorem copied_code_byte {junk : Nat → Word} {b' : Addr} {t : Mem} {o p : Object} {i : Nat}
    (h : Represents im U r s) (hc : s.blocks a = some c) (hok : c.Ok a) (hst : c.storage = .stack)
    (hrun : BlocksRuntime.blockCopyN (env.toEnv junk) n a s = .ok (b', t)) (hlimit : Addressable t)
    (hm : env.mallocOk s.mallocs = true) (hraw : blockCopyN im env n a r = .ok (b, u))
    (ho : r.objects a = some o) (hp : u.objects s.next = some p) (hlow : 12 ≤ i) (hhigh : i < 20) :
    p.byte i = o.byte i := by
  obtain ⟨v, hv, hend⟩ := implements_blockCopyN im env junk n U a r s b' t h hrun hlimit
  obtain ⟨_, rfl⟩ := Prod.mk.inj (Except.ok.inj (hv.symm.trans hraw))
  obtain ⟨d, hd, hcode⟩ := blockCopyBody_code (keeps_copyHelper (keeps_blockObjectAssignN _ n))
    h.placed.bounded hc (h.placed.ne_null hc) (hok.not_needsFree hst) (hok.not_isGlobal hst) hm hrun
  exact code_byte (h.blockBytes hc ho) (hend.blockBytes hd hp) hcode hlow hhigh

/-- The copy of a stack block has the bytes of the block from the descriptor
pointer on, but for the captured variables that need help.  When the call also
returns on records, no helper has mistaken the copy for something else, and the
copy has the bytes of `reserved` and `invoke`, too. -/
theorem copy_bitwise (h : Represents im U r s) (hr : Allocated r) (hc : s.blocks a = some c)
    (hok : c.Ok a) (hst : c.storage = .stack) (hlimit : s.next + 1 ≤ addressLimit)
    (hrun : blockCopyN im env n a r = .ok (b, u)) (hb : b ≠ NULL) :
    ∃ o p size, r.objects a = some o ∧ u.objects b = some p ∧
      c.layout.descriptor[1]? = some size ∧ p.size = size ∧ p.field 8 0 = im.isa .mallocBlock ∧
      (∀ i, 20 ≤ i → i < size → (b, i) ∉ fieldBytes b (helperFields 0 c.layout.captured) →
        p.byte i = o.byte i) ∧
      ∀ junk b' t, BlocksRuntime.blockCopyN (env.toEnv junk) n a s = .ok (b', t) →
        Addressable t → ∀ i, 12 ≤ i → i < 20 → p.byte i = o.byte i := by
  have hraw := hrun
  have hfree := hok.not_needsFree hst
  have hglobal := hok.not_isGlobal hst
  obtain ⟨o, ho, hbytes⟩ := h.block a c hc
  obtain ⟨d, _, hdesc⟩ := hbytes.descriptor
  obtain ⟨size, hsize, hlow, _⟩ := hdesc.size
  unfold blockCopyN at hrun
  cases hm : env.mallocOk s.mallocs with
  | false =>
    rw [blockCopyBody_noMemory _ h hc hfree hglobal hm] at hrun
    exact absurd (Prod.mk.inj (Except.ok.inj hrun)).1.symm hb
  | true =>
    obtain ⟨v, p, hstack, hhalf, hother, hp, hpsize, hcopied⟩ :=
      blockCopyBody_stack _ h hc ho hfree hglobal hsize hm hlimit
    rw [hstack] at hrun
    obtain ⟨_, w, hcall, hrun⟩ := bind_eq_ok hrun
    obtain ⟨_, x, hisa, hrun⟩ := bind_eq_ok hrun
    obtain ⟨rfl, rfl⟩ := Prod.mk.inj (Except.ok.inj hrun)
    have hne : a ≠ s.next := (h.placed.block_lt a c hc).ne
    have hv : Allocated v := by
      have hnext : v.next = s.next + 1 := hhalf.next
      refine ⟨hnext ▸ Nat.succ_pos _, (hother NULL h.placed.pos.ne).trans hr.null, fun e q hq => ?_⟩
      by_cases he : e = s.next
      · rw [he, hnext]
        exact Nat.lt_succ_self _
      · rw [hother e he] at hq
        rw [hnext, ← h.next]
        exact Nat.lt_succ_of_lt (hr.lt e q hq)
    -- the helper, and `isa` last
    have hwrites := writes_ownCopyHelper ((hother a hne).trans ho) hbytes hok hv hcall
    obtain ⟨q, hq, hsame⟩ := hwrites.object _ p hp
    obtain ⟨y, hy, hstored⟩ := store_run hq 8 0 (by have := hsame.size; omega) (im.isa .mallocBlock)
    obtain ⟨_, rfl⟩ := Prod.mk.inj (Except.ok.inj (hisa.symm.trans hy))
    refine ⟨o, y, size, ho, setObject_self w s.next y, hsize, ?_, hstored.hit (im.isa_lt _),
      fun i hi hlt hfield => ?_, fun junk b' t hrecords ht i hi hlt => ?_⟩
    · exact hstored.size.trans (hsame.size.trans hpsize)
    · have hruntime : (s.next, i) ∉ headerBytes := fun hx => absurd hx.2 (Nat.not_lt.2 hi)
      have hbehind : 0 + 8 ≤ i := by omega
      rw [hstored.rest i (Or.inr hbehind), hsame.byte i fun hx => hx.elim hruntime hfield]
      exact hcopied i (by omega) hlt
    · exact copied_code_byte h hc hok hst hrecords ht hm hraw ho (setObject_self w s.next y) hi hlt

end

theorem copy_bitwise_nested : ∃ u p,
    blockCopyN sampleImage roomy 4 3 nestedBytes = .ok (4, u) ∧ u.objects 4 = some p ∧
      p.size = 64 ∧ ∀ i, 12 ≤ i → i < 40 → p.byte i = outerBytes.byte i := by
  obtain ⟨t, u, hrun, hlimit, hraw⟩ := nestedBytes_copied
  have hok : (⟨.stack, outerLiteral⟩ : BlockCell).Ok 3 :=
    nested_disciplined.rep.block_ok 3 _ rfl
  obtain ⟨o, p, size, ho, hp, hsize, hpsize, _, hbytes, hcode⟩ :=
    copy_bitwise nestedBytes_represent nestedBytes_represent.allocated
      (c := ⟨.stack, outerLiteral⟩) rfl hok rfl (by decide) hraw (by decide)
  obtain rfl : outerBytes = o := Option.some.inj ho
  obtain rfl : 64 = size := Option.some.inj hsize
  refine ⟨u, p, hraw, hp, hpsize, fun i hi hlt => ?_⟩
  by_cases hlow : i < 20
  · exact hcode _ 4 t hrun hlimit i hi hlow
  · refine hbytes i (not_lt.1 hlow) (hlt.trans (by decide)) ?_
    -- the first field of the helper is at 40
    rintro ⟨f, hf, _, hfirst, _⟩
    have hfields : ∀ f ∈ helperFields 0 outerLiteral.captured, 40 ≤ f.1 := by decide
    exact absurd (hfirst.trans_lt hlt) (Nat.not_lt.2 (hfields f hf))

/-- The heap copy of a variable without helpers has the bytes of the variable,
all of them, and the variable forwards to it. -/
theorem byref_copy_bitwise {im : Image} (env : RawEnv) (n : Nat) {U : Set Addr} {r : RawMem}
    {s : Mem} {a : Addr} {c : ByrefCell} (h : Represents im U r s) (hc : s.byrefs a = some c)
    (ha : a ∉ U) (hself : c.byref.forwarding = a)
    (hcount : c.byref.flags &&& BLOCK_REFCOUNT_MASK = 0)
    (hplain : c.byref.flags &&& BLOCK_BYREF_HAS_COPY_DISPOSE = 0)
    (hm : env.mallocOk s.mallocs = true) (hlimit : s.next + 1 ≤ addressLimit) :
    ∃ u o p q, blockByrefCopyN im env n a r = .ok (s.next, u) ∧ r.objects a = some o ∧
      u.objects s.next = some p ∧ p.size = c.byref.size.toNat ∧
      (∀ i, 24 ≤ i → i < c.byref.size.toNat → p.byte i = o.byte i) ∧
      u.objects a = some q ∧ q.field 8 8 = s.next ∧ SameBytes (bytesAt a 8 8) a o q := by
  obtain ⟨o, ho, hb⟩ := h.byref a c hc
  have hne : a ≠ s.next := (h.placed.byref_lt a c hc).ne
  obtain ⟨p₀, u, hmalloc, hsize, hnew, hold, hu⟩ := h.malloc_run hm hlimit c.byref.size.toNat
  obtain ⟨v, hlog, hobjects, hv⟩ := log_run hu (.mallocByref a s.next)
  have hao : v.objects a = some o := hobjects ▸ (hold a hne).trans ho
  have hro : v.objects s.next = some p₀ := hobjects ▸ hnew
  obtain ⟨p, q, hpsize, hq, hheader, hstores⟩ := header_run hb hao hro hsize hne hlimit
  have hbq := hb.storeForwarding hq hlimit ha
  have haq := setObject_self (v.setObject s.next p) a q
  have hnp : ((v.setObject s.next p).setObject a q).objects s.next = some p :=
    (setObject_ne _ q hne.symm).trans (setObject_self v s.next p)
  have hroom := hb.room
  have hqsize := hq.size
  have hfits : 24 ≤ c.byref.size.toNat := by
    have := byrefHeader_le c.byref
    have := hb.fits
    omega
  obtain ⟨p', hmove, hblit⟩ := memmove_run hnp haq 24 24 (c.byref.size.toNat - 24) (by omega)
    (by omega)
  have haq' : (((v.setObject s.next p).setObject a q).setObject s.next p').objects a = some q :=
    (setObject_ne _ p' hne).trans haq
  have hforward : q.field 8 8 = s.next := hq.hit hlimit
  have hload : load64 a 8 _ = _ := load64_run haq' (by omega)
  refine ⟨_, o, p', q, ?_, ho, setObject_self _ s.next p', hblit.size.trans hpsize,
    fun i hi hlt => ?_, haq', hforward, hq.size, fun i hi => hq.rest i ?_⟩
  · rw [blockByrefCopyN, blockByrefCopyBody, run_bind (hb.forwarding_run ho), hself,
      run_bind (hb.flags_run ho), if_pos hcount, run_bind (hb.size_run ho), run_bind hmalloc,
      run_bind hlog]
    refine (hstores _).trans ?_
    rw [run_bind (hbq.flags_run haq), if_neg (not_not.2 hplain), run_bind (hbq.size_run haq),
      run_bind hmove]
    rw [hforward] at hload
    exact hload
  · obtain ⟨k, rfl⟩ : ∃ k, i = 24 + k := ⟨i - 24, by omega⟩
    rw [hblit.bytes k (by omega)]
    exact hq.rest _ (Or.inr (by omega))
  · by_contra hin
    exact hi ⟨rfl, by omega, by omega⟩

theorem byref_copy_bitwise_nested : ∃ u p,
    blockByrefCopyN sampleImage roomy 4 1 nestedBytes = .ok (4, u) ∧ u.objects 4 = some p ∧
      p.size = 32 ∧ ∀ i, 24 ≤ i → i < 32 → p.byte i = counterBytes.byte i := by
  obtain ⟨u, o, p, q, hrun, ho, hp, hsize, hbytes, _⟩ := byref_copy_bitwise roomy 4
    nestedBytes_represent (c := ⟨.stack, { counterRecord with forwarding := 1 }⟩) rfl
    (Set.notMem_empty 1) rfl rfl rfl rfl (by decide)
  obtain rfl : counterBytes = o := Option.some.inj ho
  exact ⟨u, p, hrun, hp, hsize, hbytes⟩

end BlocksRuntime.Raw
