import BlocksRuntime.CopyFrame
import BlocksRuntime.Creation
import BlocksRuntime.Raw.Runtime
import BlocksRuntime.StateRefinement.Basic

/-!
# The records that bytes represent

* `BlockBytes` and `ByrefBytes` say which bytes hold a block and a `__block`
  record.  A record with helpers has only the words that its helpers handle:
  `_Block_byref_copy` leaves the rest of a copy uninitialised.
* `Represents` relates a memory of objects to a memory of records.  The objects
  in `unfinished` are being filled: they hold no record yet, or a copy whose
  `byref_keep` is still running.
* One lemma for each field says that a load at its offset finds it.
* One lemma for each store says that the changed object holds the changed
  record.
-/

namespace BlocksRuntime.Raw

open RetryLoop ByteMemory StateFrame StateRefinement

/-! ## The layout of a block -/

/-- The calls that the helpers of a block make, from the captured variable `i`
on. -/
def helperFields : Nat → List Capture → List (Nat × Flags)
  | _, [] => []
  | i, x :: xs =>
    match x.kind.flags with
    | none => helperFields (i + 1) xs
    | some flags => (32 + 8 * i, flags) :: helperFields (i + 1) xs

/-- A descriptor, and a size that the object has room for. -/
structure DescriptorBytes (im : Image) (b : BlockLayout) (p : Object) (room : Nat) : Prop where
  fits : 8 * b.descriptor.length ≤ p.size
  words : ∀ i w, b.descriptor[i]? = some w → p.field 8 (8 * i) = w
  size : ∃ n, b.descriptor[1]? = some n ∧ 32 + 8 * b.captured.length ≤ n ∧ n ≤ room
  copy : b.flags &&& BLOCK_HAS_COPY_DISPOSE ≠ 0 → ∀ w, b.descriptor[2]? = some w →
    im.copyCode w = some (helperFields 0 b.captured)
  dispose : b.flags &&& BLOCK_HAS_COPY_DISPOSE ≠ 0 → ∀ w, b.descriptor[3]? = some w →
    im.disposeCode w = some (helperFields 0 b.captured)

/-- The bytes of `struct Block_layout` and of the captured variables. -/
structure BlockBytes (im : Image) (b : BlockLayout) (o : Object) : Prop where
  isa : o.field 8 0 = im.isa b.isa
  flags : o.field 4 8 = b.flags.toNat
  reserved : o.field 4 12 = b.reserved.toNat
  invoke : o.field 8 16 = b.invoke
  descriptor : ∃ p, im.data (o.field 8 24) = some p ∧ DescriptorBytes im b p o.size
  captured : ∀ i x, b.captured[i]? = some x → o.field 8 (32 + 8 * i) = x.value

/-! ## The layout of a `__block` record -/

/-- The offset of the words behind the header. -/
def byrefHeader (b : BlockByref) : Nat :=
  if b.flags &&& BLOCK_BYREF_HAS_COPY_DISPOSE ≠ 0 then 40 else 24

def keepCodeOf : ByrefKeep → KeepCode
  | .assign field flags => .assign (40 + 8 * field) flags
  | .copy field => .copy (40 + 8 * field)

def destroyCodeOf : ByrefDestroy → DestroyCode
  | .dispose field flags => .dispose (40 + 8 * field) flags
  | .release field => .release (40 + 8 * field)

/-- The field that `byref_destroy` disposes of. -/
def destroyedField : ByrefDestroy → Nat
  | .dispose field _ => field
  | .release field => field

/-- The flags for which `_Block_object_assign` stores something. -/
def Assigns (flags : Flags) : Prop :=
  flags &&& BLOCK_ALL_COPY_DISPOSE_FLAGS ∈
    [BLOCK_FIELD_IS_OBJECT, BLOCK_FIELD_IS_BLOCK, BLOCK_FIELD_IS_BYREF ||| BLOCK_FIELD_IS_WEAK,
      BLOCK_FIELD_IS_BYREF, BLOCK_BYREF_CALLER ||| BLOCK_FIELD_IS_OBJECT,
      BLOCK_BYREF_CALLER ||| BLOCK_FIELD_IS_BLOCK,
      BLOCK_BYREF_CALLER ||| BLOCK_FIELD_IS_OBJECT ||| BLOCK_FIELD_IS_WEAK,
      BLOCK_BYREF_CALLER ||| BLOCK_FIELD_IS_BLOCK ||| BLOCK_FIELD_IS_WEAK]

/-- `byref_keep` always copies its field. -/
def KeepsField : ByrefKeep → Prop
  | .assign _ flags => Assigns flags
  | .copy _ => True

/-- The two function pointers of `struct Block_byref_2`. -/
structure HelperBytes (im : Image) (h : BlockByref2) (o : Object) : Prop where
  keep : im.keepCode (o.field 8 24) = some (keepCodeOf h.byrefKeep)
  destroy : im.destroyCode (o.field 8 32) = some (destroyCodeOf h.byrefDestroy)
  sameField : destroyedField h.byrefDestroy = h.byrefKeep.field
  keepsField : KeepsField h.byrefKeep

/-- `struct Block_byref`. -/
structure HeaderBytes (im : Image) (b : BlockByref) (o : Object) : Prop where
  isa : o.field 8 0 = im.isa b.isa
  forwarding : o.field 8 8 = b.forwarding
  flags : o.field 4 16 = b.flags.toNat
  size : o.field 4 20 = b.size.toNat

/-- The bytes of `struct Block_byref` and of the words behind it. -/
structure ByrefBytes (im : Image) (unfinished : Prop) (a : Addr) (b : BlockByref) (o : Object) :
    Prop extends HeaderBytes im b o where
  fits : byrefHeader b + 8 * b.storage.length ≤ b.size.toNat
  room : b.size.toNat ≤ o.size
  plain : b.flags &&& BLOCK_BYREF_HAS_COPY_DISPOSE = 0 → ∀ i w, b.storage[i]? = some w →
    o.field 8 (24 + 8 * i) = w
  helpers : b.flags &&& BLOCK_BYREF_HAS_COPY_DISPOSE ≠ 0 → ∀ h, b.byref2 = some h →
    HelperBytes im h o
  field : b.flags &&& BLOCK_BYREF_HAS_COPY_DISPOSE ≠ 0 → ¬unfinished → ∀ h w,
    b.byref2 = some h → b.storage[h.byrefKeep.field]? = some w →
    o.field 8 (40 + 8 * h.byrefKeep.field) = w
  layout : b.flags &&& BLOCK_BYREF_HAS_COPY_DISPOSE ≠ 0 →
    b.flags &&& BLOCK_BYREF_LAYOUT_EXTENDED ≠ 0 → ∀ w, b.storage[0]? = some w →
    o.field 8 40 = w
  unfinished : unfinished → b.forwarding = a ∧ refcount b.flags ≠ 0

/-! ## Memories -/

/-- Records are at addresses that were handed out, and at different ones. -/
structure Placed (s : Mem) : Prop where
  pos : 0 < s.next
  block_null : s.blocks NULL = none
  byref_null : s.byrefs NULL = none
  block_lt : ∀ a c, s.blocks a = some c → a < s.next
  byref_lt : ∀ a c, s.byrefs a = some c → a < s.next
  disjoint : ∀ a c, s.blocks a = some c → s.byrefs a = none

/-- As many addresses as a pointer can tell apart. -/
def addressLimit : Nat := 256 ^ 8

/-- The bytes of every object are those of its record.  The records of `unfinished`
have a helper that has not stored its word. -/
structure Represents (im : Image) (unfinished : Set Addr) (r : RawMem) (s : Mem) : Prop where
  placed : Placed s
  next : r.next = s.next
  mallocs : r.mallocs = s.mallocs
  trace : r.trace = s.trace
  limit : s.next ≤ addressLimit
  unfinished_lt : ∀ a, a ∈ unfinished → a < s.next
  block : ∀ a c, s.blocks a = some c →
    ∃ o, r.objects a = some o ∧ BlockBytes im c.layout o
  byref : ∀ a c, s.byrefs a = some c →
    ∃ o, r.objects a = some o ∧ ByrefBytes im (a ∈ unfinished) a c.byref o
  /-- There is no other object. -/
  covered : ∀ a o, r.objects a = some o →
    s.blocks a ≠ none ∨ s.byrefs a ≠ none ∨ a ∈ unfinished

/-! ## Runs on objects -/

section Evaluation

variable {β : Type} {r : RawMem} {a src : Addr} {o p : Object} {n off : Nat}

@[simp] theorem run_pure (b : β) (r : RawMem) : (pure b : RawM β) r = .ok (b, r) := rfl

@[simp] theorem run_log (e : Event) (r : RawMem) :
    log e r = .ok ((), { r with trace := r.trace ++ [e] }) := rfl

theorem load_run (ho : r.objects a = some o) (h : off + n ≤ o.size) :
    load n a off r = .ok (o.field n off, r) := by
  simp only [load, ho, Object.load_ok h]

theorem load64_run (ho : r.objects a = some o) (h : off + 8 ≤ o.size) :
    load64 a off r = .ok (o.field 8 off, r) := load_run ho h

theorem load32_run (ho : r.objects a = some o) (h : off + 4 ≤ o.size) {w : Flags}
    (hw : o.field 4 off = w.toNat) : load32 a off r = .ok (w, r) := by
  rw [load32, run_bind (load_run ho h), hw, run_pure, BitVec.ofNat_toNat, BitVec.setWidth_eq]

theorem store_run (ho : r.objects a = some o) (n off : Nat) (h : off + n ≤ o.size) (value : Nat) :
    ∃ p, store n a off value r = .ok ((), r.setObject a p) ∧ o.Stored n off value p := by
  obtain ⟨p, hp, hstored⟩ := Object.store_ok h value
  refine ⟨p, ?_, hstored⟩
  simp only [store, ho, hp]

theorem memmove_run (ho : r.objects a = some o) (hsrc : r.objects src = some p)
    (off soff len : Nat) (hs : soff + len ≤ p.size) (hd : off + len ≤ o.size) :
    ∃ q, memmove a off src soff len r = .ok ((), r.setObject a q) ∧
      o.Blitted off p soff len q := by
  obtain ⟨q, hq, hblit⟩ := Object.blit_ok hs hd
  refine ⟨q, ?_, hblit⟩
  simp only [memmove, ho, hsrc, hq]

theorem dataWord_run {im : Image} (hp : im.data a = some p) (h : off + 8 ≤ p.size) (r : RawMem) :
    dataWord im a off r = .ok (p.field 8 off, r) := by
  simp only [dataWord, hp, Object.load_ok h, run_pure]

@[simp] theorem setObject_self (r : RawMem) (a : Addr) (o : Object) :
    (r.setObject a o).objects a = some o := by
  simp [RawMem.setObject]

@[simp] theorem setObject_ne (r : RawMem) (o : Object) {b : Addr} (h : b ≠ a) :
    (r.setObject a o).objects b = r.objects b := by
  simp [RawMem.setObject, h]

/-- Only the last of two stores into an object stays. -/
@[simp] theorem setObject_twice (r : RawMem) (a : Addr) (o p : Object) :
    (r.setObject a o).setObject a p = r.setObject a p := by
  simp [RawMem.setObject]

theorem setObject_same (ho : r.objects a = some o) : r.setObject a o = r := by
  rw [RawMem.setObject, ← ho, Function.update_eq_self]

theorem setObject_comm (r : RawMem) {b : Addr} (o p : Object) (h : b ≠ a) :
    (r.setObject a o).setObject b p = (r.setObject b p).setObject a o := by
  simp [RawMem.setObject, Function.update_comm h]

theorem erase_self (r : RawMem) (a : Addr) : (r.erase a).objects a = none := by
  simp [RawMem.erase]

theorem erase_ne (r : RawMem) {b : Addr} (h : b ≠ a) : (r.erase a).objects b = r.objects b := by
  simp [RawMem.erase, h]

/-- A retry loop on the word `w` that nobody else writes. -/
theorem loopFlags_run {ρ : Type} {loop : Flags → Attempt Flags ρ} {v w : Flags} {res : ρ}
    (ho : r.objects a = some o) (h : off + 4 ≤ o.size) (hv : o.field 4 off = v.toNat)
    (hrun : (loop v).run v = (res, w)) :
    ∃ p, loopFlags a off loop r = .ok (res, r.setObject a p) ∧ o.Stored 4 off w.toNat p := by
  rw [loopFlags, run_bind (load32_run ho h hv)]
  cases hloop : loop v with
  | exit result =>
    rw [hloop, Attempt.run_exit] at hrun
    obtain ⟨rfl, rfl⟩ := Prod.mk.inj hrun
    refine ⟨o, ?_, rfl, fun _ => hv, fun _ _ _ => rfl, fun _ _ => rfl⟩
    rw [setObject_same ho]
    rfl
  | cas newValue result =>
    rw [hloop, Attempt.run_cas] at hrun
    obtain ⟨rfl, rfl⟩ := Prod.mk.inj hrun
    obtain ⟨p, hp, hstored⟩ := store_run ho 4 off h newValue.toNat
    refine ⟨p, ?_, hstored⟩
    show (store32 a off newValue >>= fun _ => pure result) r = _
    rw [store32, run_bind hp, run_pure]

end Evaluation

/-! ## Blocks -/

theorem helperFields_congr {xs ys : List Capture}
    (h : xs.map Capture.kind = ys.map Capture.kind) (i : Nat) :
    helperFields i xs = helperFields i ys := by
  induction xs generalizing ys i with
  | nil =>
    rw [List.map_nil, eq_comm, List.map_eq_nil_iff] at h
    rw [h]
  | cons x xs ih =>
    cases ys with
    | nil => cases h
    | cons y ys =>
      rw [List.map_cons, List.map_cons, List.cons.injEq] at h
      rw [helperFields, helperFields, h.1, ih h.2]

/-- Storing into a captured variable keeps the kinds. -/
theorem kinds_modify (xs : List Capture) (i : Nat) (value : Word) :
    (xs.modify i fun x => { x with value := value }).map Capture.kind = xs.map Capture.kind := by
  induction xs generalizing i with
  | nil => cases i <;> rfl
  | cons x xs ih =>
    cases i with
    | zero => rfl
    | succ i => exact congrArg (List.cons x.kind) (ih i)

section Blocks

variable {im : Image} {b b' : BlockLayout} {o p : Object} {r : RawMem} {a : Addr}

/-- What the layout of a descriptor depends on. -/
theorem DescriptorBytes.congr {room : Nat} (h : DescriptorBytes im b p room)
    (hdesc : b'.descriptor = b.descriptor)
    (hkinds : b'.captured.map Capture.kind = b.captured.map Capture.kind)
    (hflags : b'.flags &&& BLOCK_HAS_COPY_DISPOSE = b.flags &&& BLOCK_HAS_COPY_DISPOSE)
    {room' : Nat} (hroom : ∀ n, b.descriptor[1]? = some n → n ≤ room → n ≤ room') :
    DescriptorBytes im b' p room' := by
  have hlength : b'.captured.length = b.captured.length := by
    simpa using congrArg List.length hkinds
  have hfields := helperFields_congr hkinds 0
  refine ⟨hdesc ▸ h.fits, hdesc ▸ h.words, ?_, ?_, ?_⟩
  · obtain ⟨n, hn, hlow, hhigh⟩ := h.size
    rw [hdesc, hlength]
    exact ⟨n, hn, hlow, hroom n hn hhigh⟩
  · rw [hflags, hdesc, hfields]
    exact h.copy
  · rw [hflags, hdesc, hfields]
    exact h.dispose

namespace BlockBytes

variable (h : BlockBytes im b o)

include h

theorem room : 32 + 8 * b.captured.length ≤ o.size := by
  obtain ⟨p, _, hp⟩ := h.descriptor
  obtain ⟨n, _, hlow, hhigh⟩ := hp.size
  exact hlow.trans hhigh

theorem capture_room {i : Nat} {x : Capture} (hx : b.captured[i]? = some x) :
    32 + 8 * i + 8 ≤ o.size := by
  have hlt := (List.getElem?_eq_some_iff.1 hx).1
  have hroom := h.room
  omega

/-! ### Loads -/

theorem flags_run (ho : r.objects a = some o) : load32 a 8 r = .ok (b.flags, r) :=
  load32_run ho (by have := h.room; omega) h.flags

theorem descriptor_run (ho : r.objects a = some o) :
    load64 a 24 r = .ok (o.field 8 24, r) :=
  load64_run ho (by have := h.room; omega)

theorem word_run {i : Nat} {w : Word} (hw : b.descriptor[i]? = some w) (u : RawMem) :
    dataWord im (o.field 8 24) (8 * i) u = .ok (w, u) := by
  obtain ⟨p, hp, hdesc⟩ := h.descriptor
  have hlt := (List.getElem?_eq_some_iff.1 hw).1
  have hfits := hdesc.fits
  rw [dataWord_run hp (by omega), hdesc.words i w hw]

theorem captured_run (ho : r.objects a = some o) {i : Nat} {x : Capture}
    (hx : b.captured[i]? = some x) : load64 a (32 + 8 * i) r = .ok (x.value, r) := by
  rw [load64_run ho (h.capture_room hx), h.captured i x hx]

theorem loop_run (ho : r.objects a = some o) {ρ : Type} {loop : Flags → Attempt Flags ρ}
    {w : Flags} {res : ρ} (hrun : (loop b.flags).run b.flags = (res, w)) :
    ∃ p, loopFlags a 8 loop r = .ok (res, r.setObject a p) ∧ o.Stored 4 8 w.toNat p :=
  loopFlags_run ho (by have := h.room; omega) h.flags hrun

/-! ### Calls of helpers -/

theorem descriptor2_run (ho : r.objects a = some o)
    (hhas : b.flags &&& BLOCK_HAS_COPY_DISPOSE ≠ 0) :
    blockDescriptor2 a r = .ok (some (o.field 8 24, 16), r) := by
  rw [blockDescriptor2, run_bind (h.flags_run ho), if_neg hhas, run_bind (h.descriptor_run ho),
    run_pure]

theorem descriptor2_none (ho : r.objects a = some o)
    (hno : b.flags &&& BLOCK_HAS_COPY_DISPOSE = 0) :
    blockDescriptor2 a r = .ok (none, r) := by
  rw [blockDescriptor2, run_bind (h.flags_run ho), if_pos hno, run_pure]

theorem copyHelper_none (ho : r.objects a = some o) (hno : b.flags &&& BLOCK_HAS_COPY_DISPOSE = 0)
    (raw : List (Nat × Flags) → Addr → Addr → RawM Unit) (dst : Addr) :
    blockCallCopyHelper im raw dst a r = .ok ((), r) := by
  rw [blockCallCopyHelper, run_bind (h.descriptor2_none ho hno)]
  rfl

/-- The copy helper is the one that the compiler made for the captured
variables. -/
theorem copyHelper_run (ho : r.objects a = some o) (hhas : b.flags &&& BLOCK_HAS_COPY_DISPOSE ≠ 0)
    {copy : Word} (hcopy : b.descriptor[2]? = some copy)
    (raw : List (Nat × Flags) → Addr → Addr → RawM Unit) (dst : Addr) :
    blockCallCopyHelper im raw dst a r = raw (helperFields 0 b.captured) dst a
      { r with trace := r.trace ++ [.copyHelper copy dst] } := by
  obtain ⟨p, _, hdesc⟩ := h.descriptor
  rw [blockCallCopyHelper, run_bind (h.descriptor2_run ho hhas)]
  show (dataWord im (o.field 8 24) (8 * 2) >>= _) r = _
  rw [run_bind (h.word_run hcopy r), run_bind (run_log _ r), hdesc.copy hhas copy hcopy,
    callCode_some]

theorem disposeHelper_none (ho : r.objects a = some o)
    (hno : b.flags &&& BLOCK_HAS_COPY_DISPOSE = 0) (raw : List (Nat × Flags) → Addr → RawM Unit) :
    blockCallDisposeHelper im raw a r = .ok ((), r) := by
  rw [blockCallDisposeHelper, run_bind (h.descriptor2_none ho hno)]
  rfl

theorem disposeHelper_run (ho : r.objects a = some o)
    (hhas : b.flags &&& BLOCK_HAS_COPY_DISPOSE ≠ 0) {dispose : Word}
    (hdispose : b.descriptor[3]? = some dispose) (raw : List (Nat × Flags) → Addr → RawM Unit) :
    blockCallDisposeHelper im raw a r = raw (helperFields 0 b.captured) a
      { r with trace := r.trace ++ [.disposeHelper dispose a] } := by
  obtain ⟨p, _, hdesc⟩ := h.descriptor
  rw [blockCallDisposeHelper, run_bind (h.descriptor2_run ho hhas)]
  show (dataWord im (o.field 8 24) (8 * 3) >>= _) r = _
  rw [run_bind (h.word_run hdispose r), run_bind (run_log _ r), hdesc.dispose hhas dispose hdispose,
    callCode_some]

/-! ### Stores -/

/-- A store behind the descriptor pointer or before it. -/
theorem descriptor_stored {n off value : Nat} (hp : o.Stored n off value p)
    (hmiss : 24 + 8 ≤ off ∨ off + n ≤ 24) (hdesc : b'.descriptor = b.descriptor)
    (hkinds : b'.captured.map Capture.kind = b.captured.map Capture.kind)
    (hflags : b'.flags &&& BLOCK_HAS_COPY_DISPOSE = b.flags &&& BLOCK_HAS_COPY_DISPOSE) :
    ∃ d, im.data (p.field 8 24) = some d ∧ DescriptorBytes im b' d p.size := by
  obtain ⟨d, hd, hbytes⟩ := h.descriptor
  rw [hp.miss 8 24 hmiss, hp.size]
  exact ⟨d, hd, hbytes.congr hdesc hkinds hflags fun _ _ hn => hn⟩

theorem storeFlags {w : Flags} (hp : o.Stored 4 8 w.toNat p)
    (hw : w &&& BLOCK_HAS_COPY_DISPOSE = b.flags &&& BLOCK_HAS_COPY_DISPOSE) :
    BlockBytes im { b with flags := w } p where
  isa := (hp.miss 8 0 (by decide)).trans h.isa
  flags := hp.hit w.isLt
  reserved := (hp.miss 4 12 (by decide)).trans h.reserved
  invoke := (hp.miss 8 16 (by decide)).trans h.invoke
  descriptor := h.descriptor_stored hp (by decide) rfl rfl hw
  captured i x hx := (hp.miss 8 _ (by omega)).trans (h.captured i x hx)

theorem storeIsa {i : Isa} (hp : o.Stored 8 0 (im.isa i) p) :
    BlockBytes im { b with isa := i } p where
  isa := hp.hit (im.isa_lt i)
  flags := (hp.miss 4 8 (by decide)).trans h.flags
  reserved := (hp.miss 4 12 (by decide)).trans h.reserved
  invoke := (hp.miss 8 16 (by decide)).trans h.invoke
  descriptor := h.descriptor_stored hp (by decide) rfl rfl rfl
  captured j x hx := (hp.miss 8 _ (by omega)).trans (h.captured j x hx)

/-- The store of a copy helper. -/
theorem storeCapture {i : Nat} {value : Word} (hv : value < addressLimit)
    (hp : o.Stored 8 (32 + 8 * i) value p) :
    BlockBytes im { b with captured := b.captured.modify i fun x => { x with value := value } }
      p where
  isa := (hp.miss 8 0 (by omega)).trans h.isa
  flags := (hp.miss 4 8 (by omega)).trans h.flags
  reserved := (hp.miss 4 12 (by omega)).trans h.reserved
  invoke := (hp.miss 8 16 (by omega)).trans h.invoke
  descriptor := h.descriptor_stored hp (by omega) rfl (kinds_modify _ _ _) rfl
  captured j x hx := by
    have hget := List.getElem?_modify (fun x : Capture => { x with value := value }) i b.captured j
    by_cases hij : i = j
    · subst hij
      rw [hget] at hx
      obtain ⟨y, _, rfl⟩ := Option.map_eq_some_iff.1 hx
      rw [if_pos rfl]
      exact hp.hit hv
    · rw [hget] at hx
      obtain ⟨y, hy, rfl⟩ := Option.map_eq_some_iff.1 hx
      rw [if_neg hij]
      exact (hp.miss 8 _ (by omega)).trans (h.captured j y hy)

/-- A bitwise copy. -/
theorem blit {q : Object} {n : Nat} (hn : b.descriptor[1]? = some n) (hsize : p.size = n)
    (hp : q.Blitted 0 o 0 n p) : BlockBytes im b p := by
  obtain ⟨d, hd, hdesc⟩ := h.descriptor
  have hroom : 32 + 8 * b.captured.length ≤ n := by
    obtain ⟨m, hm, hlow, _⟩ := hdesc.size
    rw [hn, Option.some.injEq] at hm
    exact hm ▸ hlow
  have hfield : ∀ m off, off + m ≤ n → p.field m off = o.field m off := fun m off hle => by
    rw [hp.hit m off (Nat.zero_le off) (by omega)]
    simp
  refine ⟨?_, ?_, ?_, ?_, ⟨d, ?_, ?_⟩, ?_⟩
  · rw [hfield 8 0 (by omega), h.isa]
  · rw [hfield 4 8 (by omega), h.flags]
  · rw [hfield 4 12 (by omega), h.reserved]
  · rw [hfield 8 16 (by omega), h.invoke]
  · rw [hfield 8 24 (by omega)]
    exact hd
  · refine hdesc.congr rfl rfl rfl fun m hm _ => ?_
    rw [hn, Option.some.injEq] at hm
    omega
  · intro i x hx
    have hlt := (List.getElem?_eq_some_iff.1 hx).1
    rw [hfield 8 _ (by omega), h.captured i x hx]

end BlockBytes

end Blocks

/-! ## `__block` records -/

/-- A fresh copy has references, whatever the low half was. -/
theorem heapByrefFlags_refcount_ne (w : Flags) : refcount (heapByrefFlags w) ≠ 0 := by
  intro hzero
  have hand := (and_refcount_mask_eq_zero _).2 hzero
  have hbit : heapByrefFlags w &&& 4 = 0 := by
    rw [show (4 : Flags) = BLOCK_REFCOUNT_MASK &&& 4 by decide, ← BitVec.and_assoc, hand]
    decide
  rw [heapByrefFlags_and, show (BLOCK_BYREF_NEEDS_FREE ||| 4) &&& 4 = 4 by decide] at hbit
  exact absurd (BitVec.or_eq_zero_iff.1 hbit).2 (by decide)

theorem byrefHeader_le (b : BlockByref) : 24 ≤ byrefHeader b := by
  unfold byrefHeader
  split <;> decide

theorem byrefHeader_helpers {b : BlockByref} (h : b.flags &&& BLOCK_BYREF_HAS_COPY_DISPOSE ≠ 0) :
    byrefHeader b = 40 := if_pos h

theorem byrefHeader_plain {b : BlockByref} (h : b.flags &&& BLOCK_BYREF_HAS_COPY_DISPOSE = 0) :
    byrefHeader b = 24 := if_neg (not_not.2 h)

theorem byrefHeader_congr {b b' : BlockByref}
    (h : b'.flags &&& BLOCK_BYREF_HAS_COPY_DISPOSE = b.flags &&& BLOCK_BYREF_HAS_COPY_DISPOSE) :
    byrefHeader b' = byrefHeader b := by
  rw [byrefHeader, byrefHeader, h]

/-- Only the two function pointers matter. -/
theorem HelperBytes.congr {im : Image} {h : BlockByref2} {o p : Object} (hb : HelperBytes im h o)
    (hkeep : p.field 8 24 = o.field 8 24) (hdestroy : p.field 8 32 = o.field 8 32) :
    HelperBytes im h p where
  keep := by
    rw [hkeep]
    exact hb.keep
  destroy := by
    rw [hdestroy]
    exact hb.destroy
  sameField := hb.sameField
  keepsField := hb.keepsField

namespace ByrefBytes

variable {im : Image} {u : Prop} {a v : Addr} {b : BlockByref} {o p : Object} {r : RawMem}
  {h : BlockByref2}

section

variable (hb : ByrefBytes im u a b o)

include hb

theorem header_room : 24 ≤ o.size := by
  have hle := byrefHeader_le b
  have hfits := hb.fits
  have hroom := hb.room
  omega

theorem helper_room (hhas : b.flags &&& BLOCK_BYREF_HAS_COPY_DISPOSE ≠ 0) :
    40 + 8 * b.storage.length ≤ o.size := by
  have hfits := hb.fits
  have hroom := hb.room
  rw [byrefHeader_helpers hhas] at hfits
  omega

theorem word_room (hhas : b.flags &&& BLOCK_BYREF_HAS_COPY_DISPOSE ≠ 0) {i : Nat} {w : Word}
    (hw : b.storage[i]? = some w) : 40 + 8 * i + 8 ≤ o.size := by
  have hlt := (List.getElem?_eq_some_iff.1 hw).1
  have hroom := hb.helper_room hhas
  omega

/-! ### Loads -/

theorem forwarding_run (ho : r.objects a = some o) : load64 a 8 r = .ok (b.forwarding, r) := by
  rw [load64_run ho (by have := hb.header_room; omega), hb.forwarding]

theorem flags_run {c : Addr} (ho : r.objects c = some o) : load32 c 16 r = .ok (b.flags, r) :=
  load32_run ho (by have := hb.header_room; omega) hb.flags

theorem size_run (ho : r.objects a = some o) : load32 a 20 r = .ok (b.size, r) :=
  load32_run ho (by have := hb.header_room; omega) hb.size

theorem helper_run (ho : r.objects a = some o)
    (hhas : b.flags &&& BLOCK_BYREF_HAS_COPY_DISPOSE ≠ 0) (off : Nat) (hoff : off + 8 ≤ 40) :
    load64 a off r = .ok (o.field 8 off, r) :=
  load64_run ho (by have := hb.helper_room hhas; omega)

theorem field_run (ho : r.objects a = some o)
    (hhas : b.flags &&& BLOCK_BYREF_HAS_COPY_DISPOSE ≠ 0) (hu : ¬u) (hh : b.byref2 = some h)
    {w : Word} (hw : b.storage[h.byrefKeep.field]? = some w) :
    load64 a (40 + 8 * h.byrefKeep.field) r = .ok (w, r) := by
  rw [load64_run ho (hb.word_room hhas hw), hb.field hhas hu h w hh hw]

theorem loop_run (ho : r.objects a = some o) {ρ : Type} {loop : Flags → Attempt Flags ρ}
    {w : Flags} {res : ρ} (hrun : (loop b.flags).run b.flags = (res, w)) :
    ∃ p, loopFlags a 16 loop r = .ok (res, r.setObject a p) ∧ o.Stored 4 16 w.toNat p :=
  loopFlags_run ho (by have := hb.header_room; omega) hb.flags hrun

/-! ### Stores -/

theorem storeFlags {w : Flags} (hp : o.Stored 4 16 w.toNat p) (hw : high w = high b.flags)
    (hcount : u → refcount w ≠ 0) : ByrefBytes im u a { b with flags := w } p := by
  have hhas : w &&& BLOCK_BYREF_HAS_COPY_DISPOSE = b.flags &&& BLOCK_BYREF_HAS_COPY_DISPOSE :=
    and_eq_of_high_eq hw _ (by decide)
  have hext : w &&& BLOCK_BYREF_LAYOUT_EXTENDED = b.flags &&& BLOCK_BYREF_LAYOUT_EXTENDED :=
    and_eq_of_high_eq hw _ (by decide)
  have hmiss : ∀ n off, 20 ≤ off → p.field n off = o.field n off := fun n off hoff =>
    hp.miss n off (by omega)
  refine ⟨⟨?_, ?_, hp.hit w.isLt, ?_⟩, ?_, ?_, ?_, ?_, ?_, ?_, ?_⟩
  · exact (hp.miss 8 0 (by decide)).trans hb.isa
  · exact (hp.miss 8 8 (by decide)).trans hb.forwarding
  · exact (hmiss 4 20 (by decide)).trans hb.size
  · rw [byrefHeader_congr (b := b) hhas]
    exact hb.fits
  · rw [hp.size]
    exact hb.room
  · intro hzero i x hx
    rw [hmiss 8 _ (by omega)]
    exact hb.plain (hhas ▸ hzero) i x hx
  · intro hne h hh
    exact (hb.helpers (hhas ▸ hne) h hh).congr (hmiss 8 24 (by decide)) (hmiss 8 32 (by decide))
  · intro hne hu h x hh hx
    rw [hmiss 8 _ (by omega)]
    exact hb.field (hhas ▸ hne) hu h x hh hx
  · intro hne hextended x hx
    rw [hmiss 8 40 (by decide)]
    exact hb.layout (hhas ▸ hne) (hext ▸ hextended) x hx
  · exact fun hu => ⟨(hb.unfinished hu).1, hcount hu⟩

theorem storeForwarding (hp : o.Stored 8 8 v p) (hv : v < addressLimit) (hu : ¬u) :
    ByrefBytes im u a { b with forwarding := v } p := by
  have hmiss : ∀ n off, 16 ≤ off → p.field n off = o.field n off := fun n off hoff =>
    hp.miss n off (by omega)
  refine ⟨⟨?_, hp.hit hv, ?_, ?_⟩, hb.fits, ?_, ?_, ?_, ?_, ?_, fun h => absurd h hu⟩
  · exact (hp.miss 8 0 (by decide)).trans hb.isa
  · exact (hmiss 4 16 (by decide)).trans hb.flags
  · exact (hmiss 4 20 (by decide)).trans hb.size
  · rw [hp.size]
    exact hb.room
  · intro hzero i x hx
    rw [hmiss 8 _ (by omega)]
    exact hb.plain hzero i x hx
  · intro hne h hh
    exact (hb.helpers hne h hh).congr (hmiss 8 24 (by decide)) (hmiss 8 32 (by decide))
  · intro hne hu h x hh hx
    rw [hmiss 8 _ (by omega)]
    exact hb.field hne hu h x hh hx
  · intro hne hextended x hx
    rw [hmiss 8 40 (by decide)]
    exact hb.layout hne hextended x hx

/-- The store of `byref_keep` finishes the record. -/
theorem storeField (hhas : b.flags &&& BLOCK_BYREF_HAS_COPY_DISPOSE ≠ 0) (hh : b.byref2 = some h)
    {value : Word} (hv : value < addressLimit)
    (hp : o.Stored 8 (40 + 8 * h.byrefKeep.field) value p) :
    ByrefBytes im False a { b with storage := b.storage.set h.byrefKeep.field value } p := by
  have hmiss : ∀ n off, off + n ≤ 40 → p.field n off = o.field n off := fun n off hoff =>
    hp.miss n off (by omega)
  refine ⟨⟨?_, ?_, ?_, ?_⟩, ?_, ?_, fun hzero => absurd hzero hhas, ?_, ?_, ?_, False.elim⟩
  · exact (hmiss 8 0 (by decide)).trans hb.isa
  · exact (hmiss 8 8 (by decide)).trans hb.forwarding
  · exact (hmiss 4 16 (by decide)).trans hb.flags
  · exact (hmiss 4 20 (by decide)).trans hb.size
  · rw [List.length_set]
    exact hb.fits
  · rw [hp.size]
    exact hb.room
  · intro hne h' hh'
    exact (hb.helpers hne h' hh').congr (hmiss 8 24 (by decide)) (hmiss 8 32 (by decide))
  · intro _ _ h' x hh' hx
    obtain rfl : h = h' := Option.some.inj (hh.symm.trans hh')
    have hlt := (List.getElem?_eq_some_iff.1 hx).1
    rw [List.length_set] at hlt
    rw [List.getElem?_set_self hlt, Option.some.injEq] at hx
    exact hx ▸ hp.hit hv
  · intro _ hextended x hx
    by_cases hzero : h.byrefKeep.field = 0
    · have hlt := (List.getElem?_eq_some_iff.1 hx).1
      rw [List.length_set] at hlt
      rw [hzero, List.getElem?_set_self hlt, Option.some.injEq] at hx
      rw [hzero] at hp
      exact hx ▸ hp.hit hv
    · rw [List.getElem?_set_ne hzero] at hx
      rw [hp.miss 8 40 (by omega)]
      exact hb.layout hhas hextended x hx

end

/-! ### New records -/

/-- The heap copy of a record without helpers. -/
theorem of_plain {src : BlockByref} {u' : Prop} (hsrc : ByrefBytes im u a src o)
    (hzero : src.flags &&& BLOCK_BYREF_HAS_COPY_DISPOSE = 0)
    (hheader : HeaderBytes im { src with
      isa := .nil, forwarding := v, flags := heapByrefFlags src.flags } p)
    (hsize : p.size = src.size.toNat)
    (hwords : ∀ off, 24 ≤ off → off + 8 ≤ src.size.toNat → p.field 8 off = o.field 8 off)
    (hu : ¬u') :
    ByrefBytes im u' v { src with
      isa := .nil, forwarding := v, flags := heapByrefFlags src.flags } p := by
  have hhas : heapByrefFlags src.flags &&& BLOCK_BYREF_HAS_COPY_DISPOSE = 0 :=
    (heapByrefFlags_other _ (by decide)).trans hzero
  have hfits := hsrc.fits
  rw [byrefHeader_plain hzero] at hfits
  refine ⟨hheader, ?_, hsize.ge, ?_, fun hne => absurd hhas hne, fun hne => absurd hhas hne,
    fun hne => absurd hhas hne, fun h => absurd h hu⟩
  · rw [byrefHeader_plain hhas]
    exact hfits
  · intro _ i w hw
    have hlt : i < src.storage.length := (List.getElem?_eq_some_iff.1 hw).1
    rw [hwords _ (by omega) (by omega)]
    exact hsrc.plain hzero i w hw

/-- The heap copy of a record with helpers, before its helper runs. -/
theorem of_helpers {src : BlockByref} {words : List Word} (hsrc : ByrefBytes im u a src o)
    (hhas : src.flags &&& BLOCK_BYREF_HAS_COPY_DISPOSE ≠ 0)
    (hheader : HeaderBytes im { src with
      isa := .nil, forwarding := v, flags := heapByrefFlags src.flags, storage := words } p)
    (hsize : p.size = src.size.toNat) (hlength : words.length = src.storage.length)
    (hkeep : p.field 8 24 = o.field 8 24) (hdestroy : p.field 8 32 = o.field 8 32)
    (hlayout : src.flags &&& BLOCK_BYREF_LAYOUT_EXTENDED ≠ 0 →
      p.field 8 40 = o.field 8 40 ∧ words[0]? = src.storage[0]?) :
    ByrefBytes im True v { src with
      isa := .nil, forwarding := v, flags := heapByrefFlags src.flags, storage := words } p := by
  have hcopy : heapByrefFlags src.flags &&& BLOCK_BYREF_HAS_COPY_DISPOSE =
      src.flags &&& BLOCK_BYREF_HAS_COPY_DISPOSE := heapByrefFlags_other _ (by decide)
  have hext : heapByrefFlags src.flags &&& BLOCK_BYREF_LAYOUT_EXTENDED =
      src.flags &&& BLOCK_BYREF_LAYOUT_EXTENDED := heapByrefFlags_other _ (by decide)
  refine ⟨hheader, ?_, hsize.ge, ?_, ?_, ?_, ?_, ?_⟩
  · rw [hlength, byrefHeader_congr (b := src) hcopy]
    exact hsrc.fits
  · exact fun hzero => absurd (hcopy ▸ hzero) hhas
  · intro _ h hh
    exact (hsrc.helpers hhas h hh).congr hkeep hdestroy
  · exact fun _ hu => absurd trivial hu
  · intro _ hextended w hw
    obtain ⟨hword, hget⟩ := hlayout (hext ▸ hextended)
    rw [hword]
    exact hsrc.layout hhas (hext ▸ hextended) w (hget ▸ hw)
  · intro _
    refine ⟨rfl, fun hcount => ?_⟩
    exact heapByrefFlags_refcount_ne src.flags hcount

end ByrefBytes

/-! ## Stores into a represented memory -/

theorem Placed.block_next {s : Mem} (h : Placed s) : s.blocks s.next = none := by
  cases hc : s.blocks s.next with
  | none => rfl
  | some c => exact absurd (h.block_lt _ c hc) (Nat.lt_irrefl _)

theorem Placed.byref_next {s : Mem} (h : Placed s) : s.byrefs s.next = none := by
  cases hc : s.byrefs s.next with
  | none => rfl
  | some c => exact absurd (h.byref_lt _ c hc) (Nat.lt_irrefl _)

theorem Placed.ne_null {s : Mem} (h : Placed s) {a : Addr} {c : BlockCell}
    (hc : s.blocks a = some c) : a ≠ NULL := by
  rintro rfl
  exact Option.some_ne_none c (hc.symm.trans h.block_null)

theorem Placed.byref_ne_null {s : Mem} (h : Placed s) {a : Addr} {c : ByrefCell}
    (hc : s.byrefs a = some c) : a ≠ NULL := by
  rintro rfl
  exact Option.some_ne_none c (hc.symm.trans h.byref_null)

theorem Placed.block_none {s : Mem} (h : Placed s) {a : Addr} {c : ByrefCell}
    (hc : s.byrefs a = some c) : s.blocks a = none := by
  cases hd : s.blocks a with
  | none => rfl
  | some d => exact absurd ((h.disjoint a d hd).symm.trans hc) (Option.some_ne_none c).symm

namespace Represents

variable {im : Image} {U V : Set Addr} {r : RawMem} {s : Mem} {a : Addr} {p : Object}

/-- An object holds a block or a `__block` record, if none is unfinished. -/
theorem holds (h : Represents im ∅ r s) (hp : r.objects a = some p) :
    (∃ c, s.blocks a = some c) ∨ ∃ c, s.byrefs a = some c := by
  rcases h.covered a p hp with hblock | hbyref | hu
  · exact Or.inl (Option.ne_none_iff_exists'.1 hblock)
  · exact Or.inr (Option.ne_none_iff_exists'.1 hbyref)
  · exact hu.elim

section

variable (h : Represents im U r s)

include h

theorem block_lt {c : BlockCell} (hc : s.blocks a = some c) : a < addressLimit :=
  Nat.lt_of_lt_of_le (h.placed.block_lt a c hc) h.limit

theorem byref_lt {c : ByrefCell} (hc : s.byrefs a = some c) : a < addressLimit :=
  Nat.lt_of_lt_of_le (h.placed.byref_lt a c hc) h.limit

/-- The object of a block holds its bytes. -/
theorem blockBytes {c : BlockCell} (hc : s.blocks a = some c) (hp : r.objects a = some p) :
    BlockBytes im c.layout p := by
  obtain ⟨q, hq, hb⟩ := h.block a c hc
  obtain rfl : p = q := Option.some.inj (hp.symm.trans hq)
  exact hb

/-- The object of a `__block` record holds its bytes. -/
theorem byrefBytes {c : ByrefCell} (hc : s.byrefs a = some c) (hp : r.objects a = some p) :
    ByrefBytes im (a ∈ U) a c.byref p := by
  obtain ⟨q, hq, hb⟩ := h.byref a c hc
  obtain rfl : p = q := Option.some.inj (hp.symm.trans hq)
  exact hb

/-- The object at `a` holds a block from now on. -/
theorem storeBlock {d : BlockCell} (ha : a < s.next) (hnull : a ≠ NULL)
    (hno : s.byrefs a = none) (hU : ∀ b, b ≠ a → (b ∈ V ↔ b ∈ U))
    (hp : BlockBytes im d.layout p) :
    Represents im V (r.setObject a p) (s.setBlock a d) where
  placed := by
    refine ⟨h.placed.pos, ?_, h.placed.byref_null, fun b e he => ?_, h.placed.byref_lt,
      fun b e he => ?_⟩
    · rw [Mem.setBlock_blocks_ne s d hnull.symm]
      exact h.placed.block_null
    · by_cases hba : b = a
      · exact hba ▸ ha
      · rw [Mem.setBlock_blocks_ne s d hba] at he
        exact h.placed.block_lt b e he
    · by_cases hba : b = a
      · exact hba ▸ hno
      · rw [Mem.setBlock_blocks_ne s d hba] at he
        exact h.placed.disjoint b e he
  next := h.next
  mallocs := h.mallocs
  trace := h.trace
  limit := h.limit
  unfinished_lt b hb := by
    by_cases hba : b = a
    · exact hba ▸ ha
    · exact h.unfinished_lt b ((hU b hba).1 hb)
  block b e he := by
    by_cases hba : b = a
    · subst hba
      rw [Mem.setBlock_blocks_self, Option.some.injEq] at he
      exact ⟨p, setObject_self r b p, he ▸ hp⟩
    · rw [Mem.setBlock_blocks_ne s d hba] at he
      rw [setObject_ne r p hba]
      exact h.block b e he
  byref b e he := by
    have hba : b ≠ a := fun heq => Option.some_ne_none e (he.symm.trans (heq ▸ hno))
    rw [setObject_ne r p hba, propext (hU b hba)]
    exact h.byref b e he
  covered b o ho := by
    by_cases hba : b = a
    · rw [hba, Mem.setBlock_blocks_self]
      exact Or.inl (Option.some_ne_none d)
    · rw [setObject_ne r p hba] at ho
      rw [Mem.setBlock_blocks_ne s d hba, hU b hba]
      exact h.covered b o ho

theorem setBlock {c d : BlockCell} (hc : s.blocks a = some c) (hp : BlockBytes im d.layout p) :
    Represents im U (r.setObject a p) (s.setBlock a d) :=
  h.storeBlock (h.placed.block_lt a c hc) (h.placed.ne_null hc) (h.placed.disjoint a c hc)
    (fun _ _ => Iff.rfl) hp

/-- The object at `a` holds a `__block` record from now on. -/
theorem storeByref {d : ByrefCell} (ha : a < s.next) (hnull : a ≠ NULL)
    (hno : s.blocks a = none) (hU : ∀ b, b ≠ a → (b ∈ V ↔ b ∈ U))
    (hp : ByrefBytes im (a ∈ V) a d.byref p) :
    Represents im V (r.setObject a p) (s.setByref a d) where
  placed := by
    refine ⟨h.placed.pos, h.placed.block_null, ?_, h.placed.block_lt, fun b e he => ?_,
      fun b e he => ?_⟩
    · rw [Mem.setByref_byrefs_ne s d hnull.symm]
      exact h.placed.byref_null
    · by_cases hba : b = a
      · exact hba ▸ ha
      · rw [Mem.setByref_byrefs_ne s d hba] at he
        exact h.placed.byref_lt b e he
    · have hba : b ≠ a := fun heq => Option.some_ne_none e (he.symm.trans (heq ▸ hno))
      rw [Mem.setByref_byrefs_ne s d hba]
      exact h.placed.disjoint b e he
  next := h.next
  mallocs := h.mallocs
  trace := h.trace
  limit := h.limit
  unfinished_lt b hb := by
    by_cases hba : b = a
    · exact hba ▸ ha
    · exact h.unfinished_lt b ((hU b hba).1 hb)
  block b e he := by
    have hba : b ≠ a := fun heq => Option.some_ne_none e (he.symm.trans (heq ▸ hno))
    rw [setObject_ne r p hba]
    exact h.block b e he
  byref b e he := by
    by_cases hba : b = a
    · subst hba
      rw [Mem.setByref_byrefs_self, Option.some.injEq] at he
      exact ⟨p, setObject_self r b p, he ▸ hp⟩
    · rw [Mem.setByref_byrefs_ne s d hba] at he
      rw [setObject_ne r p hba, propext (hU b hba)]
      exact h.byref b e he
  covered b o ho := by
    by_cases hba : b = a
    · rw [hba, Mem.setByref_byrefs_self]
      exact Or.inr (Or.inl (Option.some_ne_none d))
    · rw [setObject_ne r p hba] at ho
      rw [Mem.setByref_byrefs_ne s d hba, hU b hba]
      exact h.covered b o ho

theorem setByref {c d : ByrefCell} (hc : s.byrefs a = some c)
    (hp : ByrefBytes im (a ∈ U) a d.byref p) :
    Represents im U (r.setObject a p) (s.setByref a d) :=
  h.storeByref (h.placed.byref_lt a c hc) (h.placed.byref_ne_null hc) (h.placed.block_none hc)
    (fun _ _ => Iff.rfl) hp

theorem log (e : Event) :
    Represents im U { r with trace := r.trace ++ [e] } (s.log e) where
  placed := ⟨h.placed.pos, h.placed.block_null, h.placed.byref_null, h.placed.block_lt,
    h.placed.byref_lt, h.placed.disjoint⟩
  next := h.next
  mallocs := h.mallocs
  trace := congrArg (· ++ [e]) h.trace
  limit := h.limit
  unfinished_lt := h.unfinished_lt
  block := h.block
  byref := h.byref
  covered := h.covered

/-- `malloc` fails. -/
theorem noMemory :
    Represents im U { r with mallocs := r.mallocs + 1 } { s with mallocs := s.mallocs + 1 } where
  placed := ⟨h.placed.pos, h.placed.block_null, h.placed.byref_null, h.placed.block_lt,
    h.placed.byref_lt, h.placed.disjoint⟩
  next := h.next
  mallocs := congrArg (· + 1) h.mallocs
  trace := h.trace
  limit := h.limit
  unfinished_lt := h.unfinished_lt
  block := h.block
  byref := h.byref
  covered := h.covered

/-- `malloc` succeeds.  The new object holds no record yet. -/
theorem allocate (hlimit : s.next + 1 ≤ addressLimit) (o : Object) :
    Represents im (insert s.next U)
      { r.setObject r.next o with next := r.next + 1, mallocs := r.mallocs + 1 }
      { s with next := s.next + 1, mallocs := s.mallocs + 1 } where
  placed := ⟨Nat.succ_pos _, h.placed.block_null, h.placed.byref_null,
    fun b c hc => Nat.lt_succ_of_lt (h.placed.block_lt b c hc),
    fun b c hc => Nat.lt_succ_of_lt (h.placed.byref_lt b c hc), h.placed.disjoint⟩
  next := congrArg (· + 1) h.next
  mallocs := congrArg (· + 1) h.mallocs
  trace := h.trace
  limit := hlimit
  unfinished_lt b hb := by
    rcases hb with rfl | hb
    · exact Nat.lt_succ_self _
    · exact Nat.lt_succ_of_lt (h.unfinished_lt b hb)
  block b c hc := by
    have hne : b ≠ r.next := h.next ▸ (h.placed.block_lt b c hc).ne
    rw [setObject_ne r o hne]
    exact h.block b c hc
  byref b c hc := by
    have hne : b ≠ s.next := (h.placed.byref_lt b c hc).ne
    have hold : (b ∈ insert s.next U) = (b ∈ U) := by
      rw [Set.mem_insert_iff, or_iff_right hne]
    rw [h.next, setObject_ne r o hne, hold]
    exact h.byref b c hc
  covered b p hp := by
    by_cases hb : b = s.next
    · exact Or.inr (Or.inr (Or.inl hb))
    · rw [h.next, setObject_ne r o hb] at hp
      exact (h.covered b p hp).imp_right (Or.imp_right Or.inr)

theorem eraseBlock {c : BlockCell} (hc : s.blocks a = some c) :
    Represents im U (r.erase a) (s.eraseBlock a) where
  placed := by
    have hsub : ∀ b e, (s.eraseBlock a).blocks b = some e → s.blocks b = some e := by
      intro b e he
      by_cases hba : b = a
      · rw [hba, Mem.eraseBlock_blocks_self] at he
        exact absurd he.symm (Option.some_ne_none e)
      · rwa [Mem.eraseBlock_blocks_ne s hba] at he
    refine ⟨h.placed.pos, ?_, h.placed.byref_null,
      fun b e he => h.placed.block_lt b e (hsub b e he), h.placed.byref_lt,
      fun b e he => h.placed.disjoint b e (hsub b e he)⟩
    rw [Mem.eraseBlock_blocks_ne s (h.placed.ne_null hc).symm]
    exact h.placed.block_null
  next := h.next
  mallocs := h.mallocs
  trace := h.trace
  limit := h.limit
  unfinished_lt := h.unfinished_lt
  block b e he := by
    by_cases hba : b = a
    · rw [hba, Mem.eraseBlock_blocks_self] at he
      exact absurd he.symm (Option.some_ne_none e)
    · rw [Mem.eraseBlock_blocks_ne s hba] at he
      rw [erase_ne r hba]
      exact h.block b e he
  byref b e he := by
    have hba : b ≠ a := fun heq =>
      Option.some_ne_none e (he.symm.trans (heq ▸ h.placed.disjoint a c hc))
    rw [erase_ne r hba]
    exact h.byref b e he
  covered b o ho := by
    have hba : b ≠ a := fun heq => Option.some_ne_none o (ho.symm.trans (heq ▸ erase_self r a))
    rw [erase_ne r hba] at ho
    rw [Mem.eraseBlock_blocks_ne s hba]
    exact h.covered b o ho

theorem eraseByref {c : ByrefCell} (hc : s.byrefs a = some c) :
    Represents im U (r.erase a) (s.eraseByref a) where
  placed := by
    have hsub : ∀ b e, (s.eraseByref a).byrefs b = some e → s.byrefs b = some e := by
      intro b e he
      by_cases hba : b = a
      · rw [hba, Mem.eraseByref_byrefs_self] at he
        exact absurd he.symm (Option.some_ne_none e)
      · rwa [Mem.eraseByref_byrefs_ne s hba] at he
    refine ⟨h.placed.pos, h.placed.block_null, ?_, h.placed.block_lt,
      fun b e he => h.placed.byref_lt b e (hsub b e he), fun b e he => ?_⟩
    · rw [Mem.eraseByref_byrefs_ne s (h.placed.byref_ne_null hc).symm]
      exact h.placed.byref_null
    · by_cases hba : b = a
      · rw [hba]
        exact Mem.eraseByref_byrefs_self s a
      · rw [Mem.eraseByref_byrefs_ne s hba]
        exact h.placed.disjoint b e he
  next := h.next
  mallocs := h.mallocs
  trace := h.trace
  limit := h.limit
  unfinished_lt := h.unfinished_lt
  block b e he := by
    have hnone := h.placed.block_none hc
    have hba : b ≠ a := fun heq => Option.some_ne_none e (he.symm.trans (heq ▸ hnone))
    rw [erase_ne r hba]
    exact h.block b e he
  byref b e he := by
    by_cases hba : b = a
    · rw [hba, Mem.eraseByref_byrefs_self] at he
      exact absurd he.symm (Option.some_ne_none e)
    · rw [Mem.eraseByref_byrefs_ne s hba] at he
      rw [erase_ne r hba]
      exact h.byref b e he
  covered b o ho := by
    have hba : b ≠ a := fun heq => Option.some_ne_none o (ho.symm.trans (heq ▸ erase_self r a))
    rw [erase_ne r hba] at ho
    rw [Mem.eraseByref_byrefs_ne s hba]
    exact h.covered b o ho

end

end Represents

/-! ## Literals and variables -/

section

variable {im : Image} {U : Set Addr} {r : RawMem} {s : Mem} {o : Object}

theorem Represents.bump (h : Represents im U r s) (hlimit : s.next + 1 ≤ addressLimit) :
    Represents im U { r with next := r.next + 1 } { s with next := s.next + 1 } where
  placed := ⟨Nat.succ_pos _, h.placed.block_null, h.placed.byref_null,
    fun b c hc => Nat.lt_succ_of_lt (h.placed.block_lt b c hc),
    fun b c hc => Nat.lt_succ_of_lt (h.placed.byref_lt b c hc), h.placed.disjoint⟩
  next := congrArg (· + 1) h.next
  mallocs := h.mallocs
  trace := h.trace
  limit := hlimit
  unfinished_lt b hb := Nat.lt_succ_of_lt (h.unfinished_lt b hb)
  block := h.block
  byref := h.byref
  covered := h.covered

theorem Represents.newBlock {c : BlockCell} (h : Represents im U r s)
    (hlimit : s.next + 1 ≤ addressLimit) (ho : BlockBytes im c.layout o) :
    Represents im U (r.create o) (s.newBlock c) := by
  have hnew := (h.bump hlimit).storeBlock (a := s.next) (Nat.lt_succ_self _) h.placed.pos.ne'
    h.placed.byref_next (fun _ _ => Iff.rfl) ho
  rw [h.next] at hnew
  rw [RawMem.create, h.next]
  exact hnew

theorem Represents.newByref {b : BlockByref} (h : Represents im ∅ r s)
    (hlimit : s.next + 1 ≤ addressLimit)
    (ho : ByrefBytes im False s.next { b with forwarding := s.next } o) :
    Represents im ∅ (r.create o) (s.newByref b) := by
  have hnew := (h.bump hlimit).storeByref (a := s.next) (V := ∅)
    (d := ⟨.stack, { b with forwarding := s.next }⟩) (Nat.lt_succ_self _) h.placed.pos.ne'
    h.placed.block_next (fun _ _ => Iff.rfl) ho
  rw [h.next] at hnew
  rw [RawMem.create, h.next]
  exact hnew

theorem represents_empty (im : Image) : Represents im ∅ RawMem.empty Mem.empty where
  placed := ⟨Nat.one_pos, rfl, rfl, by simp [Mem.empty], by simp [Mem.empty],
    by simp [Mem.empty]⟩
  next := rfl
  mallocs := rfl
  trace := rfl
  limit := by decide
  unfinished_lt _ hb := hb.elim
  block _ _ hc := by cases hc
  byref _ _ hc := by cases hc
  covered _ _ ho := by cases ho

end

/-! ## A small memory -/

/-- An object with these numbers back to back, each with its width. -/
def laidOut (numbers : List (Nat × Nat)) : Object :=
  let bytes := numbers.flatMap fun x => (List.range x.1).map fun i => UInt8.ofNat (x.2 / 256 ^ i)
  ⟨bytes.length, fun i => bytes.getD i 0⟩

def isaWord : Isa → Word
  | .nil => NULL
  | .stackBlock => 1000
  | .mallocBlock => 1008
  | .autoBlock => 1016
  | .finalizingBlock => 1024
  | .globalBlock => 1032
  | .weakBlockVariable => 1040

/-- A program with the descriptors of three literals. -/
def sampleImage : Image where
  isa := isaWord
  isa_nil := rfl
  isa_lt i := by cases i <;> decide
  data a :=
    if a = 500 then some (laidOut [(8, 0), (8, 40), (8, 101), (8, 102)])
    else if a = 600 then some (laidOut [(8, 0), (8, 64), (8, 201), (8, 202)])
    else if a = 700 then
      some (laidOut [(8, 0), (8, 40), (8, 401), (8, 402), (8, 403), (8, 0x100)])
    else none
  copyCode fn :=
    if fn = 101 then some [(32, 8)]
    else if fn = 201 then some [(40, 7), (48, 8), (56, 3)]
    else if fn = 401 then some [(32, 3)]
    else none
  disposeCode fn :=
    if fn = 102 then some [(32, 8)]
    else if fn = 202 then some [(40, 7), (48, 8), (56, 3)]
    else if fn = 402 then some [(32, 3)]
    else none
  keepCode _ := none
  destroyCode _ := none

def counterBytes : Object := laidOut [(8, 0), (8, 1), (4, 0), (4, 32), (8, 10)]

def innerBytes : Object :=
  laidOut [(8, 1000), (4, BLOCK_HAS_COPY_DISPOSE.toNat), (4, 0), (8, 100), (8, 500), (8, 1)]

def outerBytes : Object :=
  laidOut [(8, 1000), (4, BLOCK_HAS_COPY_DISPOSE.toNat), (4, 0), (8, 200), (8, 600), (8, 7), (8, 2),
    (8, 1), (8, 50)]

/-- What is checked word by word. -/
theorem forall_getElem? {α : Type} {xs : List α} {P : Nat → α → Prop}
    (h : ∀ i (hi : i < xs.length), P i xs[i]) (i : Nat) (x : α) (hx : xs[i]? = some x) : P i x := by
  obtain ⟨hi, rfl⟩ := List.getElem?_eq_some_iff.1 hx
  exact h i hi

theorem counterBytes_ok :
    ByrefBytes sampleImage False 1 { counterRecord with forwarding := 1 } counterBytes where
  isa := by decide
  forwarding := by decide
  flags := by decide
  size := by decide
  fits := by decide
  room := by decide
  plain _ := forall_getElem? (by decide)
  helpers h := absurd (by decide) h
  field h := absurd (by decide) h
  layout h := absurd (by decide) h
  unfinished h := h.elim

theorem innerBytes_ok : BlockBytes sampleImage innerLiteral innerBytes where
  isa := by decide
  flags := by decide
  reserved := by decide
  invoke := by decide
  descriptor := by
    refine ⟨laidOut [(8, 0), (8, 40), (8, 101), (8, 102)], ?_, by decide,
      forall_getElem? (by decide), ⟨40, rfl, by decide, by decide⟩, ?_, ?_⟩
    · rw [show innerBytes.field 8 24 = 500 by decide]
      rfl
    · rintro - w hw
      obtain rfl : 101 = w := Option.some.inj hw
      rfl
    · rintro - w hw
      obtain rfl : 102 = w := Option.some.inj hw
      rfl
  captured := forall_getElem? (by decide)

theorem outerBytes_ok : BlockBytes sampleImage outerLiteral outerBytes where
  isa := by decide
  flags := by decide
  reserved := by decide
  invoke := by decide
  descriptor := by
    refine ⟨laidOut [(8, 0), (8, 64), (8, 201), (8, 202)], ?_, by decide,
      forall_getElem? (by decide), ⟨64, rfl, by decide, by decide⟩, ?_, ?_⟩
    · rw [show outerBytes.field 8 24 = 600 by decide]
      rfl
    · rintro - w hw
      obtain rfl : 201 = w := Option.some.inj hw
      rfl
    · rintro - w hw
      obtain rfl : 202 = w := Option.some.inj hw
      rfl
  captured := forall_getElem? (by decide)

/-- The bytes of `nested`. -/
def nestedBytes : RawMem :=
  ((RawMem.empty.create counterBytes).create innerBytes).create outerBytes

theorem nestedBytes_represent : Represents sampleImage ∅ nestedBytes nested := by
  have hcounter := (represents_empty sampleImage).newByref (by decide) counterBytes_ok
  have hinner := hcounter.newBlock (c := ⟨.stack, innerLiteral⟩) (by decide) innerBytes_ok
  exact hinner.newBlock (c := ⟨.stack, outerLiteral⟩) (by decide) outerBytes_ok

end BlocksRuntime.Raw
