import BlocksRuntime.Memory
import Mathlib.Data.Nat.Pairing

/-!
# Signed function pointers

With pointer authentication a function pointer inside a block or a `__block`
record is signed with the address of the slot that holds it, so its bits mean
nothing at any other address.

* `PtrAuth` is the compiler's intrinsics and what the code relies on.
* `StorageSignedFunctionPointer` is the class of the C++11 build, member by
  member.  `blockSetFunctionPointer` and `blockGetFunctionPointer` are the
  macros of the older builds.
* `SlotOp` is an operation on the slots of a memory, `SlotOp.effect` the value
  that it is meant to store.
* `Signed` is the invariant, and `runSlots_signed` the result: no authentication
  fails, and every reader gets back what was stored.
-/

namespace BlocksRuntime

/-- The ptrauth keys that the code uses. -/
inductive PtrauthKey where
  | functionPointer
  | blockFunction
  deriving DecidableEq, Repr

/-- The ptrauth intrinsics for the functions `F`.  A failed authentication is
`none`.  `sign f key data` is `f` signed with a key and with extra data, and
`address f` is its unsigned address. -/
structure PtrAuth (F : Type) where
  sign : F → PtrauthKey → Word → Word
  address : F → Word
  authAndResign : Word → PtrauthKey → Word → PtrauthKey → Word → Option Word
  authFunction : Word → PtrauthKey → Word → Option Word
  authData : Word → PtrauthKey → Word → Option Word
  authAndResign_sign : ∀ f key data key' data',
    authAndResign (sign f key data) key data key' data' = some (sign f key' data')
  authFunction_sign : ∀ f key data,
    authFunction (sign f key data) key data = some (sign f .functionPointer 0)
  authData_sign : ∀ f key data, authData (sign f key data) key data = some (address f)
  authAndResign_wrong : ∀ f key data other key' data', other ≠ data →
    authAndResign (sign f key data) key other key' data' = none
  authFunction_wrong : ∀ f key data other, other ≠ data →
    authFunction (sign f key data) key other = none
  authData_wrong : ∀ f key data other, other ≠ data →
    authData (sign f key data) key other = none
  sign_ne_zero : ∀ f key data, sign f key data ≠ 0
  address_ne_zero : ∀ f, address f ≠ 0

/-- The slots, by address.  A slot that was never written holds any word. -/
abbrev Slots := Addr → Word

section

variable {F : Type} (P : PtrAuth F)

/-- A C function pointer. -/
def PtrAuth.pointer : Option F → Word
  | none => 0
  | some f => P.sign f .functionPointer 0

/-- A data pointer to the code of a function. -/
def PtrAuth.rawPointer : Option F → Word
  | none => 0
  | some f => P.address f

/-! ## `StorageSignedFunctionPointer` -/

namespace StorageSignedFunctionPointer

variable (key : PtrauthKey)

/-- `prepareWrite(Fn fn)`.  `self` is `&bits`. -/
def prepareWrite (self : Addr) (fn : Word) : Option Word :=
  if fn = 0 then some 0
  else P.authAndResign fn .functionPointer 0 key self

/-- `prepareWrite(const StorageSignedFunctionPointer& other)`. -/
def prepareWriteOther (self other : Addr) (otherBits : Word) : Option Word :=
  if otherBits = 0 then some 0
  else P.authAndResign otherBits key other key self

def completeReadFn (self : Addr) (ptr : Word) : Option Word :=
  if ptr = 0 then some 0
  else P.authFunction ptr key self

def completeReadRaw (self : Addr) (ptr : Word) : Option Word :=
  if ptr = 0 then some 0
  else P.authData ptr key self

/-- What the constructor and the assignment do with a function pointer. -/
def writeFn (self : Addr) (fn : Word) (m : Slots) : Option Slots := do
  let bits ← prepareWrite P key self fn
  return Function.update m self bits

/-- What the copy constructor and the copy assignment do. -/
def writeOther (self other : Addr) (m : Slots) : Option Slots := do
  let bits ← prepareWriteOther P key self other (m other)
  return Function.update m self bits

/-- `StorageSignedFunctionPointer(Fn value)`. -/
def construct : Addr → Word → Slots → Option Slots := writeFn P key

/-- `StorageSignedFunctionPointer(const StorageSignedFunctionPointer& value)`. -/
def copyConstruct : Addr → Addr → Slots → Option Slots := writeOther P key

/-- `operator = (Fn rhs)`. -/
def assignFn : Addr → Word → Slots → Option Slots := writeFn P key

/-- `operator = (const StorageSignedFunctionPointer& rhs)`. -/
def assign : Addr → Addr → Slots → Option Slots := writeOther P key

/-- `operator Fn ()`. -/
def operatorFn (self : Addr) (m : Slots) : Option Word := completeReadFn P key self (m self)

/-- `explicit operator void* ()`. -/
def operatorVoid (self : Addr) (m : Slots) : Option Word := completeReadRaw P key self (m self)

/-- `explicit operator bool ()`. -/
def operatorBool (self : Addr) (m : Slots) : Option Bool := do
  let raw ← completeReadRaw P key self (m self)
  return decide (raw ≠ 0)

end StorageSignedFunctionPointer

/-! ## The macros -/

/-- `_Block_set_function_pointer`. -/
def blockSetFunctionPointer (field : Addr) (value : Word) (m : Slots) : Option Slots :=
  if value ≠ 0 then do
    let bits ← P.authAndResign value .functionPointer 0 .blockFunction field
    return Function.update m field bits
  else
    return Function.update m field 0

/-- `_Block_get_function_pointer`. -/
def blockGetFunctionPointer (field : Addr) (m : Slots) : Option Word :=
  if m field ≠ 0 then P.authFunction (m field) .blockFunction field
  else some 0

/-! ## Operations on slots -/

/-- `invoke` when `_Block_copy` copies a block: the bytes move, and then the
slot is assigned from the original. -/
def moveInvoke (result aBlock : Addr) (m : Slots) : Option Slots :=
  StorageSignedFunctionPointer.assign P .blockFunction result aBlock
    (Function.update m result (m aBlock))

end

/-- An operation on slots.  Every slot is a `BlockCopyFunction`,
`BlockDisposeFunction`, `BlockInvokeFunction`, `BlockByrefKeepFunction` or
`BlockByrefDestroyFunction`, so its key is `ptrauth_key_block_function`. -/
inductive SlotOp (F : Type) where
  | construct (slot : Addr) (value : Option F)
  | assignFn (slot : Addr) (value : Option F)
  | setMacro (slot : Addr) (value : Option F)
  | copyConstruct (slot other : Addr)
  | assign (slot other : Addr)
  | moveInvoke (slot other : Addr)
  deriving DecidableEq, Repr

def SlotOp.run {F : Type} (P : PtrAuth F) : SlotOp F → Slots → Option Slots
  | .construct slot value =>
    StorageSignedFunctionPointer.construct P .blockFunction slot (P.pointer value)
  | .assignFn slot value =>
    StorageSignedFunctionPointer.assignFn P .blockFunction slot (P.pointer value)
  | .setMacro slot value => blockSetFunctionPointer P slot (P.pointer value)
  | .copyConstruct slot other =>
    StorageSignedFunctionPointer.copyConstruct P .blockFunction slot other
  | .assign slot other => StorageSignedFunctionPointer.assign P .blockFunction slot other
  | .moveInvoke slot other => BlocksRuntime.moveInvoke P slot other

/-- A sequence of operations. -/
def runSlots {F : Type} (P : PtrAuth F) : List (SlotOp F) → Slots → Option Slots
  | [], m => some m
  | op :: ops, m => (op.run P m).bind (runSlots P ops)

/-! ## What the slots are meant to hold -/

/-- The function last stored in each slot, `some none` for null and `none` for
a slot that was never written. -/
abbrev Stored (F : Type) := Addr → Option (Option F)

section

variable {F : Type}

/-- The slot that an operation reads. -/
def SlotOp.source : SlotOp F → Option Addr
  | .construct _ _ | .assignFn _ _ | .setMacro _ _ => none
  | .copyConstruct _ other | .assign _ other | .moveInvoke _ other => some other

def SlotOp.effect : SlotOp F → Stored F → Stored F
  | .construct slot value, g | .assignFn slot value, g | .setMacro slot value, g =>
    Function.update g slot (some value)
  | .copyConstruct slot other, g | .assign slot other, g | .moveInvoke slot other, g =>
    Function.update g slot (g other)

def effects : List (SlotOp F) → Stored F → Stored F
  | [], g => g
  | op :: ops, g => effects ops (op.effect g)

/-- Every operation reads an initialised slot. -/
def Initialised : List (SlotOp F) → Stored F → Prop
  | [], _ => True
  | op :: ops, g => (∀ a, op.source = some a → g a ≠ none) ∧ Initialised ops (op.effect g)

/-! ## The invariant -/

section

variable (P : PtrAuth F)

/-- The bits that stand for a value in the slot `a`. -/
def PtrAuth.encode (a : Addr) : Option F → Word
  | none => 0
  | some f => P.sign f .blockFunction a

/-- Every initialised slot holds its value signed with its own address. -/
def Signed (g : Stored F) (m : Slots) : Prop :=
  ∀ a value, g a = some value → m a = P.encode a value

/-- What every reader of the slot `a` gets. -/
structure Reads (m : Slots) (a : Addr) (value : Option F) : Prop where
  operatorFn :
    StorageSignedFunctionPointer.operatorFn P .blockFunction a m = some (P.pointer value)
  operatorVoid :
    StorageSignedFunctionPointer.operatorVoid P .blockFunction a m = some (P.rawPointer value)
  operatorBool : StorageSignedFunctionPointer.operatorBool P .blockFunction a m = some value.isSome
  getMacro : blockGetFunctionPointer P a m = some (P.pointer value)

variable {P}

namespace StorageSignedFunctionPointer

theorem prepareWrite_pointer (self : Addr) (value : Option F) :
    prepareWrite P .blockFunction self (P.pointer value) = some (P.encode self value) := by
  cases value with
  | none => rfl
  | some f =>
    rw [PtrAuth.pointer, prepareWrite, if_neg (P.sign_ne_zero f _ _), P.authAndResign_sign]
    rfl

theorem prepareWriteOther_encode (self other : Addr) (value : Option F) :
    prepareWriteOther P .blockFunction self other (P.encode other value) =
      some (P.encode self value) := by
  cases value with
  | none => rfl
  | some f =>
    rw [PtrAuth.encode, prepareWriteOther, if_neg (P.sign_ne_zero f _ _), P.authAndResign_sign]
    rfl

theorem completeReadFn_encode (self : Addr) (value : Option F) :
    completeReadFn P .blockFunction self (P.encode self value) = some (P.pointer value) := by
  cases value with
  | none => rfl
  | some f =>
    rw [PtrAuth.encode, completeReadFn, if_neg (P.sign_ne_zero f _ _), P.authFunction_sign]
    rfl

theorem completeReadRaw_encode (self : Addr) (value : Option F) :
    completeReadRaw P .blockFunction self (P.encode self value) = some (P.rawPointer value) := by
  cases value with
  | none => rfl
  | some f =>
    rw [PtrAuth.encode, completeReadRaw, if_neg (P.sign_ne_zero f _ _), P.authData_sign]
    rfl

end StorageSignedFunctionPointer

open StorageSignedFunctionPointer

theorem PtrAuth.rawPointer_ne_zero (value : Option F) :
    decide (P.rawPointer value ≠ 0) = value.isSome := by
  cases value with
  | none => rfl
  | some f => exact decide_eq_true (P.address_ne_zero f)

/-! The macros and the class agree on every word, valid or not. -/

theorem blockSetFunctionPointer_eq (field : Addr) (value : Word) (m : Slots) :
    blockSetFunctionPointer P field value m = assignFn P .blockFunction field value m := by
  by_cases h : value = 0
  · rw [blockSetFunctionPointer, if_neg (not_not.2 h), assignFn, writeFn, prepareWrite, if_pos h]
    rfl
  · rw [blockSetFunctionPointer, if_pos h, assignFn, writeFn, prepareWrite, if_neg h]

theorem blockGetFunctionPointer_eq (field : Addr) (m : Slots) :
    blockGetFunctionPointer P field m = operatorFn P .blockFunction field m := by
  by_cases h : m field = 0
  · rw [blockGetFunctionPointer, if_neg (not_not.2 h), operatorFn, completeReadFn, if_pos h]
  · rw [blockGetFunctionPointer, if_pos h, operatorFn, completeReadFn, if_neg h]

/-- The bytes of the copy are only ever read at the original. -/
theorem moveInvoke_eq (result aBlock : Addr) (m : Slots) :
    moveInvoke P result aBlock m = assign P .blockFunction result aBlock m := by
  have hsource : Function.update m result (m aBlock) aBlock = m aBlock := by
    by_cases h : aBlock = result
    · rw [h, Function.update_self]
    · rw [Function.update_of_ne h]
  rw [moveInvoke, assign, writeOther, hsource]
  simp only [Function.update_idem]
  rfl

variable {g : Stored F} {m : Slots}

theorem Signed.reads (h : Signed P g m) {a : Addr} {value : Option F} (ha : g a = some value) :
    Reads P m a value := by
  have hbits := h a value ha
  have hfn : operatorFn P .blockFunction a m = some (P.pointer value) := by
    rw [operatorFn, hbits, completeReadFn_encode]
  have hraw : completeReadRaw P .blockFunction a (m a) = some (P.rawPointer value) := by
    rw [hbits, completeReadRaw_encode]
  refine ⟨hfn, hraw, ?_, (blockGetFunctionPointer_eq a m).trans hfn⟩
  rw [operatorBool, hraw, ← PtrAuth.rawPointer_ne_zero (P := P)]
  rfl

theorem Signed.update (h : Signed P g m) (a : Addr) (value : Option F) :
    Signed P (Function.update g a (some value)) (Function.update m a (P.encode a value)) := by
  intro b stored hb
  by_cases hab : b = a
  · subst hab
    rw [Function.update_self, Option.some.injEq] at hb
    rw [Function.update_self, hb]
  · rw [Function.update_of_ne hab] at hb ⊢
    exact h b stored hb

theorem Signed.writeFn (h : Signed P g m) (a : Addr) (value : Option F) :
    ∃ t, writeFn P .blockFunction a (P.pointer value) m = some t ∧
      Signed P (Function.update g a (some value)) t := by
  refine ⟨_, ?_, h.update a value⟩
  rw [StorageSignedFunctionPointer.writeFn, prepareWrite_pointer]
  rfl

theorem Signed.writeOther (h : Signed P g m) (a : Addr) {other : Addr} (ho : g other ≠ none) :
    ∃ t, writeOther P .blockFunction a other m = some t ∧
      Signed P (Function.update g a (g other)) t := by
  obtain ⟨value, hvalue⟩ := Option.ne_none_iff_exists'.1 ho
  refine ⟨_, ?_, hvalue ▸ h.update a value⟩
  rw [StorageSignedFunctionPointer.writeOther, h other value hvalue, prepareWriteOther_encode]
  rfl

/-- One operation authenticates, and keeps the invariant. -/
theorem Signed.step (h : Signed P g m) (op : SlotOp F)
    (hsource : ∀ a, op.source = some a → g a ≠ none) :
    ∃ t, op.run P m = some t ∧ Signed P (op.effect g) t := by
  cases op with
  | construct slot value => exact h.writeFn slot value
  | assignFn slot value => exact h.writeFn slot value
  | setMacro slot value =>
    obtain ⟨t, ht, hsigned⟩ := h.writeFn slot value
    exact ⟨t, (blockSetFunctionPointer_eq slot _ m).trans ht, hsigned⟩
  | copyConstruct slot other => exact h.writeOther slot (hsource other rfl)
  | assign slot other => exact h.writeOther slot (hsource other rfl)
  | moveInvoke slot other =>
    obtain ⟨t, ht, hsigned⟩ := h.writeOther slot (hsource other rfl)
    exact ⟨t, (moveInvoke_eq slot other m).trans ht, hsigned⟩

theorem Signed.run (h : Signed P g m) {ops : List (SlotOp F)} (hinit : Initialised ops g) :
    ∃ t, runSlots P ops m = some t ∧ Signed P (effects ops g) t := by
  induction ops generalizing g m with
  | nil => exact ⟨m, rfl, h⟩
  | cons op ops ih =>
    obtain ⟨t, ht, hsigned⟩ := h.step op hinit.1
    obtain ⟨u, hu, hlast⟩ := ih hsigned hinit.2
    refine ⟨u, ?_, hlast⟩
    rw [runSlots, ht, Option.bind_some, hu]

/-- No authentication fails, and every reader of every initialised slot gets
the function last stored there.  Memory starts with arbitrary words. -/
theorem runSlots_signed (P : PtrAuth F) (m : Slots) (ops : List (SlotOp F))
    (hinit : Initialised ops fun _ => none) :
    ∃ t, runSlots P ops m = some t ∧
      ∀ a value, effects ops (fun _ => none) a = some value → Reads P t a value := by
  have hstart : Signed P (fun _ => none) m := fun a value h => by cases h
  obtain ⟨t, ht, hsigned⟩ := hstart.run hinit
  exact ⟨t, ht, fun a value h => hsigned.reads h⟩

end

end

/-! ## A concrete signature -/

/-- A signed word that spells out what it was made from. -/
def spell (f : Nat) (key : PtrauthKey) (data : Word) : Word :=
  Nat.pair f (Nat.pair (if key = .functionPointer then 0 else 1) data) + 1

/-- The function of a word that was signed with this key and these data. -/
def authenticate (word : Word) (key : PtrauthKey) (data : Word) : Option Nat :=
  let f := (word - 1).unpair.1
  if word = spell f key data then some f else none

theorem authenticate_spell (f : Nat) (key : PtrauthKey) (data : Word) :
    authenticate (spell f key data) key data = some f := by
  simp [authenticate, spell]

theorem authenticate_wrong (f : Nat) (key : PtrauthKey) {data other : Word} (h : other ≠ data) :
    authenticate (spell f key data) key other = none := by
  simp [authenticate, spell, h.symm]

def spelledOut : PtrAuth Nat where
  sign := spell
  address f := f + 1
  authAndResign word key data key' data' :=
    (authenticate word key data).map fun f => spell f key' data'
  authFunction word key data := (authenticate word key data).map fun f => spell f .functionPointer 0
  authData word key data := (authenticate word key data).map fun f => f + 1
  authAndResign_sign f key data key' data' := by rw [authenticate_spell, Option.map_some]
  authFunction_sign f key data := by rw [authenticate_spell, Option.map_some]
  authData_sign f key data := by rw [authenticate_spell, Option.map_some]
  authAndResign_wrong f key data other key' data' h := by
    rw [authenticate_wrong f key h, Option.map_none]
  authFunction_wrong f key data other h := by rw [authenticate_wrong f key h, Option.map_none]
  authData_wrong f key data other h := by rw [authenticate_wrong f key h, Option.map_none]
  sign_ne_zero f key data := Nat.succ_ne_zero _
  address_ne_zero f := Nat.succ_ne_zero f

/-- A stored function is copied, moved with its block, assigned to itself, and
its first slot is cleared through the macro. -/
def movedAround : List (SlotOp Nat) :=
  [.assignFn 16 (some 7), .copyConstruct 24 16, .moveInvoke 32 24, .assign 32 32,
    .setMacro 16 none]

theorem runSlots_signed_movedAround :
    ∃ t, runSlots spelledOut movedAround (fun _ => 99) = some t ∧
      ∀ a value, effects movedAround (fun _ => none) a = some value →
        Reads spelledOut t a value := by
  refine runSlots_signed spelledOut (fun _ => 99) movedAround ?_
  simp [movedAround, Initialised, SlotOp.source, SlotOp.effect]

end BlocksRuntime
