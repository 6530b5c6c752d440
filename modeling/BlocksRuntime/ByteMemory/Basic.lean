import Mathlib.Algebra.Order.Group.Nat
import Mathlib.Data.Nat.Init

/-!
# Objects made of bytes

A memory object is a number of bytes.  Numbers are stored in it with the least
significant byte first, and every access is checked against its size.

* `readLE`, `writeLE` and `copyBytes` work on bytes that have no end.
* `Object.load`, `Object.store` and `Object.blit` are the checked accesses.
  Each has one lemma for what it hits and one for what it leaves alone.
-/

namespace ByteMemory

/-! ## Bytes -/

/-- The number in the `n` bytes from `off` on. -/
def readLE (byte : Nat → UInt8) : Nat → Nat → Nat
  | 0, _ => 0
  | n + 1, off => (byte off).toNat + 256 * readLE byte n (off + 1)

/-- Other bytes from `off` on. -/
def writeLE (byte : Nat → UInt8) (n off value : Nat) : Nat → UInt8 := fun i =>
  if off ≤ i ∧ i < off + n then UInt8.ofNat (value / 256 ^ (i - off)) else byte i

/-- The bytes `dst` with `n` bytes of `src`. -/
def copyBytes (dst : Nat → UInt8) (doff : Nat) (src : Nat → UInt8) (soff n : Nat) : Nat → UInt8 :=
  fun i => if doff ≤ i ∧ i < doff + n then src (soff + (i - doff)) else dst i

section

variable {f g : Nat → UInt8} {m n off off' value : Nat}

theorem readLE_lt (f : Nat → UInt8) (n off : Nat) : readLE f n off < 256 ^ n := by
  induction n generalizing off with
  | zero => exact Nat.one_pos
  | succ n ih =>
    have hbyte := (f off).toNat_lt
    have hrest := ih (off + 1)
    rw [readLE, Nat.pow_succ]
    omega

theorem readLE_congr (h : ∀ i, i < n → f (off + i) = g (off' + i)) :
    readLE f n off = readLE g n off' := by
  induction n generalizing off off' with
  | zero => rfl
  | succ n ih =>
    have hhead : f off = g off' := h 0 (Nat.succ_pos n)
    have htail : readLE f n (off + 1) = readLE g n (off' + 1) := by
      refine ih fun i hi => ?_
      have hnext := h (i + 1) (Nat.succ_lt_succ hi)
      rwa [Nat.add_comm i 1, ← Nat.add_assoc, ← Nat.add_assoc] at hnext
    rw [readLE, readLE, hhead, htail]

/-- The bytes are determined by the number. -/
theorem readLE_inj (h : readLE f n off = readLE g n off') {i : Nat} (hi : i < n) :
    f (off + i) = g (off' + i) := by
  induction n generalizing off off' i with
  | zero => exact absurd hi (Nat.not_lt_zero i)
  | succ n ih =>
    have hbyte := (f off).toNat_lt
    have hbyte' := (g off').toNat_lt
    rw [readLE, readLE] at h
    cases i with
    | zero =>
      have hhead : (f off).toNat = (g off').toNat := by omega
      exact UInt8.toNat_inj.1 hhead
    | succ i =>
      have htail : readLE f n (off + 1) = readLE g n (off' + 1) := by omega
      have hnext := ih htail (Nat.lt_of_succ_lt_succ hi)
      rwa [Nat.add_right_comm off, Nat.add_right_comm off'] at hnext

/-- The digits of a number. -/
theorem readLE_digits (h : ∀ i, i < n → f (off + i) = UInt8.ofNat (value / 256 ^ i)) :
    readLE f n off = value % 256 ^ n := by
  induction n generalizing off value with
  | zero => simp [readLE, Nat.mod_one]
  | succ n ih =>
    have hhead : f off = UInt8.ofNat value := by simpa using h 0 (Nat.succ_pos n)
    have htail : readLE f n (off + 1) = value / 256 % 256 ^ n := by
      refine ih fun i hi => ?_
      have hnext := h (i + 1) (Nat.succ_lt_succ hi)
      rwa [Nat.add_comm i 1, ← Nat.add_assoc, Nat.pow_add, ← Nat.div_div_eq_div_mul] at hnext
    have hmod : value % 256 ^ (n + 1) = value % 256 + 256 * (value / 256 % 256 ^ n) := by
      rw [Nat.pow_succ', Nat.mod_mul]
    rw [readLE, hhead, htail, UInt8.toNat_ofNat', hmod]

theorem readLE_writeLE_self (f : Nat → UInt8) (off : Nat) (h : value < 256 ^ n) :
    readLE (writeLE f n off value) n off = value := by
  have hread : readLE (writeLE f n off value) n off = value % 256 ^ n := by
    refine readLE_digits fun i hi => ?_
    rw [writeLE, if_pos ⟨Nat.le_add_right off i, Nat.add_lt_add_left hi off⟩,
      Nat.add_sub_cancel_left]
  rw [hread, Nat.mod_eq_of_lt h]

theorem readLE_writeLE_ne (f : Nat → UInt8) (value : Nat)
    (h : off + n ≤ off' ∨ off' + m ≤ off) :
    readLE (writeLE f m off' value) n off = readLE f n off := by
  refine readLE_congr fun i hi => ?_
  rw [writeLE, if_neg]
  omega

/-- A number within the copied bytes. -/
theorem readLE_copyBytes (f g : Nat → UInt8) {doff soff len : Nat} (hlow : doff ≤ off)
    (hhigh : off + n ≤ doff + len) :
    readLE (copyBytes f doff g soff len) n off = readLE g n (soff + (off - doff)) := by
  refine readLE_congr fun i hi => ?_
  rw [copyBytes, if_pos (by omega)]
  congr 1
  omega

theorem readLE_copyBytes_ne (f g : Nat → UInt8) {doff soff len : Nat}
    (h : off + n ≤ doff ∨ doff + len ≤ off) :
    readLE (copyBytes f doff g soff len) n off = readLE f n off := by
  refine readLE_congr fun i hi => ?_
  rw [copyBytes, if_neg]
  omega

end

/-! ## Objects -/

/-- A piece of memory that was allocated as one. -/
structure Object where
  size : Nat
  byte : Nat → UInt8

namespace Object

/-- The number in `n` bytes, wherever they are. -/
def field (o : Object) (n off : Nat) : Nat := readLE o.byte n off

def load (o : Object) (n off : Nat) : Option Nat :=
  if off + n ≤ o.size then some (o.field n off) else none

def store (o : Object) (n off value : Nat) : Option Object :=
  if off + n ≤ o.size then some { o with byte := writeLE o.byte n off value } else none

/-- `memmove` from one object to another. -/
def blit (dst : Object) (doff : Nat) (src : Object) (soff n : Nat) : Option Object :=
  if soff + n ≤ src.size ∧ doff + n ≤ dst.size then
    some { dst with byte := copyBytes dst.byte doff src.byte soff n }
  else none

section

variable {o p src : Object} {m n off off' value doff soff len : Nat}

theorem field_lt (o : Object) (n off : Nat) : o.field n off < 256 ^ n := readLE_lt o.byte n off

theorem load_ok (h : off + n ≤ o.size) : o.load n off = some (o.field n off) := if_pos h

/-- The bytes of a number. -/
theorem byte_of_field (h : p.field n off = o.field n off) {i : Nat} (hlow : off ≤ i)
    (hhigh : i < off + n) : p.byte i = o.byte i := by
  obtain ⟨k, rfl⟩ := Nat.exists_eq_add_of_le hlow
  exact readLE_inj h (Nat.lt_of_add_lt_add_left hhigh)

/-- What a store does. -/
structure Stored (o : Object) (n off value : Nat) (p : Object) : Prop where
  size : p.size = o.size
  hit : value < 256 ^ n → p.field n off = value
  miss : ∀ m off', off' + m ≤ off ∨ off + n ≤ off' → p.field m off' = o.field m off'
  rest : ∀ i, i < off ∨ off + n ≤ i → p.byte i = o.byte i

theorem store_ok (h : off + n ≤ o.size) (value : Nat) :
    ∃ p, o.store n off value = some p ∧ Stored o n off value p := by
  refine ⟨_, if_pos h, rfl, fun hv => readLE_writeLE_self _ _ hv,
    fun m off' hdisj => readLE_writeLE_ne _ _ hdisj, fun i hi => ?_⟩
  show writeLE o.byte n off value i = o.byte i
  rw [writeLE, if_neg]
  omega

/-- What a copy of bytes does. -/
structure Blitted (dst : Object) (doff : Nat) (src : Object) (soff len : Nat) (p : Object) :
    Prop where
  size : p.size = dst.size
  hit : ∀ n off, doff ≤ off → off + n ≤ doff + len →
    p.field n off = src.field n (soff + (off - doff))
  miss : ∀ n off, off + n ≤ doff ∨ doff + len ≤ off → p.field n off = dst.field n off
  bytes : ∀ i, i < len → p.byte (doff + i) = src.byte (soff + i)
  rest : ∀ i, i < doff ∨ doff + len ≤ i → p.byte i = dst.byte i

theorem blit_ok (hsrc : soff + len ≤ src.size) (hdst : doff + len ≤ o.size) :
    ∃ p, o.blit doff src soff len = some p ∧ Blitted o doff src soff len p := by
  refine ⟨_, if_pos ⟨hsrc, hdst⟩, rfl, fun n off hlow hhigh => readLE_copyBytes _ _ hlow hhigh,
    fun n off hdisj => readLE_copyBytes_ne _ _ hdisj, fun i hi => ?_, fun i hi => ?_⟩
  · show copyBytes o.byte doff src.byte soff len (doff + i) = src.byte (soff + i)
    rw [copyBytes, if_pos ⟨Nat.le_add_right doff i, Nat.add_lt_add_left hi doff⟩,
      Nat.add_sub_cancel_left]
  · show copyBytes o.byte doff src.byte soff len i = o.byte i
    rw [copyBytes, if_neg]
    omega

end

end Object

end ByteMemory
