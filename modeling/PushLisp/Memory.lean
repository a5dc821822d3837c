import PushLisp.Bytes

/-!
# Byte-addressed memory

A memory answers loads of single bytes and takes stores of single bytes, at 64-bit addresses. A
word is eight bytes, least significant first, and may lie at any address.

## Main definitions

* `littleEndian`, `ofLittleEndian`: a number as bytes.
* `wordBytes`, `wordOfBytes`: a word as its eight bytes.
* `ByteMemory`: loading and storing a byte.
* `ByteMemory.loadWord`, `ByteMemory.storeWord`: the same for a word.
* `Region`: an array of bytes at a base address, the plainest memory.
-/
namespace PushLisp

/-! ## Words as bytes -/

/-- The low `k` bytes of a number, least significant first. -/
def littleEndian (n : Nat) : Nat → Bytes
  | 0 => []
  | k + 1 => n.toUInt8 :: littleEndian (n / 256) k

/-- The number that bytes denote, least significant first. -/
def ofLittleEndian : Bytes → Nat
  | [] => 0
  | b :: rest => b.toNat + 256 * ofLittleEndian rest

@[simp] theorem length_littleEndian (n k : Nat) : (littleEndian n k).length = k := by
  induction k generalizing n with
  | zero => rfl
  | succ k ih => simp [littleEndian, ih]

/-- One more byte tells 256 times as many numbers apart. -/
theorem one_shiftLeft_succ (k : Nat) : 1 <<< (8 * (k + 1)) = 256 * 1 <<< (8 * k) := by
  rw [Nat.one_shiftLeft, Nat.one_shiftLeft, Nat.mul_succ, Nat.pow_add, Nat.mul_comm]

theorem ofLittleEndian_lt (bs : Bytes) : ofLittleEndian bs < 1 <<< (8 * bs.length) := by
  induction bs with
  | nil => decide
  | cons b rest ih =>
    have hb : b.toNat < 256 := b.toNat_lt
    rw [ofLittleEndian, List.length_cons, one_shiftLeft_succ]
    omega

@[simp] theorem ofLittleEndian_littleEndian (n k : Nat) :
    ofLittleEndian (littleEndian n k) = n % 1 <<< (8 * k) := by
  induction k generalizing n with
  | zero => simp [littleEndian, ofLittleEndian, Nat.mod_one]
  | succ k ih =>
    rw [littleEndian, ofLittleEndian, ih, one_shiftLeft_succ, Nat.mod_mul]
    simp

@[simp] theorem littleEndian_ofLittleEndian (bs : Bytes) :
    littleEndian (ofLittleEndian bs) bs.length = bs := by
  induction bs with
  | nil => rfl
  | cons b rest ih =>
    have hb : b.toNat < 256 := b.toNat_lt
    have hdiv : (b.toNat + 256 * ofLittleEndian rest) / 256 = ofLittleEndian rest := by omega
    have hmod : (b.toNat + 256 * ofLittleEndian rest).toUInt8 = b := by
      apply UInt8.toNat_inj.mp
      simp only [Nat.toUInt8_eq, UInt8.toNat_ofNat']
      omega
    rw [ofLittleEndian, List.length_cons, littleEndian, hdiv, hmod, ih]

/-- The eight bytes of a word. -/
def wordBytes (w : UInt64) : Bytes := littleEndian w.toNat 8

/-- The word of eight bytes. -/
def wordOfBytes (bs : Bytes) : UInt64 := (ofLittleEndian bs).toUInt64

@[simp] theorem length_wordBytes (w : UInt64) : (wordBytes w).length = 8 := by simp [wordBytes]

@[simp] theorem wordOfBytes_wordBytes (w : UInt64) : wordOfBytes (wordBytes w) = w := by
  have hw : w.toNat < 2 ^ 64 := w.toNat_lt
  apply UInt64.toNat_inj.mp
  simp only [wordOfBytes, wordBytes, ofLittleEndian_littleEndian, Nat.toUInt64_eq,
    UInt64.toNat_ofNat', Nat.one_shiftLeft]
  omega

theorem wordBytes_wordOfBytes {bs : Bytes} (h : bs.length = 8) :
    wordBytes (wordOfBytes bs) = bs := by
  have hlt := ofLittleEndian_lt bs
  rw [h] at hlt
  have hn : (ofLittleEndian bs).toUInt64.toNat = ofLittleEndian bs := by
    simp only [Nat.toUInt64_eq, UInt64.toNat_ofNat']
    omega
  have hbs := littleEndian_ofLittleEndian bs
  rw [h] at hbs
  rw [wordBytes, wordOfBytes, hn, hbs]

/-- The `i`-th byte of a word, counted from the least significant. -/
def wordByte (w : UInt64) (i : Nat) : UInt8 := (wordBytes w).getD i 0

/-- A word with its `i`-th byte replaced. -/
def setWordByte (w : UInt64) (i : Nat) (b : UInt8) : UInt64 := wordOfBytes ((wordBytes w).set i b)

theorem wordByte_setWordByte (w : UInt64) (i j : Nat) (b : UInt8) (hi : i < 8) :
    wordByte (setWordByte w i b) j = if i = j then b else wordByte w j := by
  have h : ((wordBytes w).set i b).length = 8 := by simp
  rw [wordByte, setWordByte, wordBytes_wordOfBytes h]
  by_cases hij : i = j
  · subst hij
    simp [List.getD, hi]
  · simp [List.getD, wordByte, List.getElem?_set_ne hij, hij]

/-! ## Memories -/

/-- A memory of bytes. A load where nothing is mapped gives some byte, and a store there is lost. -/
class ByteMemory (μ : Type) where
  /-- The byte at an address. -/
  load : μ → UInt64 → UInt8
  /-- The memory after a byte was stored at an address. -/
  store : μ → UInt64 → UInt8 → μ

namespace ByteMemory

variable {μ : Type} [ByteMemory μ]

/-- The `n` bytes from an address on. -/
def loadBytes (mem : μ) (address : UInt64) (n : Nat) : Bytes :=
  (List.range n).map fun i => load mem (address + i.toUInt64)

/-- The memory after bytes were stored from an address on, one after another. -/
def storeBytes (mem : μ) (address : UInt64) : Bytes → μ
  | [] => mem
  | b :: rest => storeBytes (store mem address b) (address + 1) rest

/-- The word at an address. -/
def loadWord (mem : μ) (address : UInt64) : UInt64 := wordOfBytes (loadBytes mem address 8)

/-- The memory after a word was stored at an address. -/
def storeWord (mem : μ) (address : UInt64) (w : UInt64) : μ :=
  storeBytes mem address (wordBytes w)

end ByteMemory

/-- An array of bytes placed at a base address. -/
structure Region where
  base : UInt64
  bytes : Array UInt8
  deriving Repr

instance : ByteMemory Region where
  load r address := r.bytes[(address - r.base).toNat]?.getD 0
  store r address b := { r with bytes := r.bytes.setIfInBounds (address - r.base).toNat b }

end PushLisp
