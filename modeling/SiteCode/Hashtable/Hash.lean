import Mathlib.Data.BitVec
import Mathlib.Data.Nat.Bitwise
import Mathlib.Tactic.NormNum
/-!
# `hash.h` and `log2.h`: the bucket of a key

The hash functions at both word sizes, over the unsigned words of the C code.
A key is a value of some integer type, converted where C converts it, and a
shift by the width of its operand or more is undefined (`none`).
-/

set_option linter.style.nameCheck false

namespace SiteCode.Hashtable

/-- `BITS_PER_LONG` -/
inductive WordSize where
  | w32
  | w64
  deriving DecidableEq, Repr

/-- An integer type of C. -/
structure IntType where
  sizeof : Nat
  signed : Bool
  deriving DecidableEq, Repr

namespace IntType

def int : IntType := ⟨4, true⟩

def long : IntType := ⟨8, true⟩

/-- The values of the type, in two's complement. -/
abbrev Val (t : IntType) : Type := BitVec (8 * t.sizeof)

/-- The conversion to an unsigned type of width `w`. -/
def convert (t : IntType) (v : t.Val) (w : Nat) : BitVec w :=
  if t.signed then v.signExtend w else v.setWidth w

/-- The value of an `int` in an expression of type `long`. -/
def toLong (v : int.Val) : long.Val := v.signExtend 64

end IntType

abbrev u32 := BitVec 32
abbrev u64 := BitVec 64

/-- `x >> count` -/
def shr {w : Nat} (x : BitVec w) (count : u32) : Option (BitVec w) :=
  if count.toNat < w then some (x >>> count.toNat) else none

/-! ## The hash functions -/

def GOLDEN_RATIO_32 : u32 := 0x61C88647

def GOLDEN_RATIO_64 : u64 := 0x61C8864680B583EB

def __hash_32_generic (val : u32) : u32 := val * GOLDEN_RATIO_32

def hash_32_generic (val bits : u32) : Option u32 := shr (__hash_32_generic val) (32 - bits)

def hash_64_generic (ws : WordSize) (val : u64) (bits : u32) : Option u32 :=
  match ws with
  | .w64 => (shr (val * GOLDEN_RATIO_64) (64 - bits)).map (·.setWidth 32)
  | .w32 => hash_32_generic (val.setWidth 32 ^^^ __hash_32_generic ((val >>> 32).setWidth 32)) bits

def hash_long (ws : WordSize) (t : IntType) (val : t.Val) (bits : u32) : Option u32 :=
  match ws with
  | .w64 => hash_64_generic ws (t.convert val 64) bits
  | .w32 => hash_32_generic (t.convert val 32) bits

/-- `unsigned long` -/
def IntType.ulong : WordSize → IntType
  | .w32 => ⟨4, false⟩
  | .w64 => ⟨8, false⟩

/-- A pointer is converted to `unsigned long`. -/
def hash_ptr (ws : WordSize) (ptr : (IntType.ulong ws).Val) (bits : u32) : Option u32 :=
  hash_long ws (IntType.ulong ws) ptr bits

def hash32_ptr : (ws : WordSize) → (IntType.ulong ws).Val → u32
  | .w64, ptr =>
    let val : u64 := ptr
    let val := val ^^^ (val >>> 32)
    val.setWidth 32
  | .w32, ptr => ptr

/-- The macro `hash_min(val, bits)` at an expression `val` of type `t`. -/
def hash_min (ws : WordSize) (t : IntType) (val : t.Val) (bits : u32) : Option u32 :=
  if t.sizeof ≤ 4 then hash_32_generic (t.convert val 32) bits else hash_long ws t val bits

/-! ## `ilog2` -/

/-- `(n) & (1ULL << k) ? k : ... (n) & (1ULL << 1) ? 1 : 0` -/
def ilog2_from (n : Nat) : Nat → Nat
  | 0 => 0
  | k + 1 => if n &&& (1 <<< (k + 1)) ≠ 0 then k + 1 else ilog2_from n k

def ilog2 (n : Nat) : Nat := ilog2_from n 63

theorem ilog2_from_shiftLeft {b k : Nat} (hb : b ≤ k) : ilog2_from (1 <<< b) k = b := by
  induction k with
  | zero => obtain rfl : b = 0 := by omega
            rfl
  | succ k ih =>
    rw [ilog2_from, Nat.one_shiftLeft, Nat.one_shiftLeft, Nat.and_two_pow, Nat.testBit_two_pow]
    by_cases h : b = k + 1
    · subst h; simp
    · rw [if_neg (by simp [h]), ← Nat.one_shiftLeft]
      exact ih (by omega)

theorem ilog2_shiftLeft {b : Nat} (hb : b < 64) : ilog2 (1 <<< b) = b :=
  ilog2_from_shiftLeft (by omega)

/-! ## The bucket is in the table -/

theorem toNat_ofNat_bits {b : Nat} (hb : b ≤ 30) : (BitVec.ofNat 32 b).toNat = b := by
  rw [BitVec.toNat_ofNat, Nat.mod_eq_of_lt (by omega)]

theorem shr_sub {w : Nat} (x : BitVec w) {bits : u32} (hw : w < 2 ^ 32) (h1 : 1 ≤ bits.toNat) (h2 : bits.toNat ≤ w) :
    shr x (BitVec.ofNat 32 w - bits) = some (x >>> (w - bits.toNat)) := by
  have e : (BitVec.ofNat 32 w - bits).toNat = w - bits.toNat := by bv_omega
  rw [shr, e, if_pos (by omega)]

/-- The top bits of a word are a number below the size of the table. -/
theorem ushiftRight_lt {w : Nat} (x : BitVec w) {b : Nat} (hb : b ≤ w) : (x >>> (w - b)).toNat < 2 ^ b := by
  rw [BitVec.toNat_ushiftRight, Nat.shiftRight_eq_div_pow]
  apply Nat.div_lt_of_lt_mul
  rw [← pow_add, Nat.sub_add_cancel hb]
  exact x.isLt

theorem hash_32_generic_eq (val : u32) {bits : u32} (h1 : 1 ≤ bits.toNat) (h2 : bits.toNat ≤ 32) :
    hash_32_generic val bits = some (__hash_32_generic val >>> (32 - bits.toNat)) :=
  shr_sub _ (by norm_num) h1 h2

theorem hash_64_generic_eq (val : u64) {bits : u32} (h1 : 1 ≤ bits.toNat) (h2 : bits.toNat ≤ 64) :
    hash_64_generic .w64 val bits = some (((val * GOLDEN_RATIO_64) >>> (64 - bits.toNat)).setWidth 32) := by
  have e : shr (val * GOLDEN_RATIO_64) (64 - bits) = some _ := shr_sub _ (by norm_num) h1 h2
  simp only [hash_64_generic, e, Option.map_some]

theorem hash_32_generic_lt (val : u32) {bits : u32} (h1 : 1 ≤ bits.toNat) (h2 : bits.toNat ≤ 32) :
    ∃ i, hash_32_generic val bits = some i ∧ i.toNat < 2 ^ bits.toNat :=
  ⟨_, hash_32_generic_eq val h1 h2, ushiftRight_lt _ h2⟩

theorem hash_64_generic_lt (ws : WordSize) (val : u64) {bits : u32} (h1 : 1 ≤ bits.toNat) (h2 : bits.toNat ≤ 32) :
    ∃ i, hash_64_generic ws val bits = some i ∧ i.toNat < 2 ^ bits.toNat := by
  cases ws with
  | w32 => exact hash_32_generic_lt _ h1 h2
  | w64 =>
    refine ⟨_, hash_64_generic_eq val h1 (by omega), ?_⟩
    rw [BitVec.toNat_setWidth]
    exact (Nat.mod_le _ _).trans_lt (ushiftRight_lt _ (by omega))

/-- The shifts of `hash_min` are defined, and its bucket is in the table. -/
theorem hash_min_lt (ws : WordSize) (t : IntType) (val : t.Val) (bits : u32) (h1 : 1 ≤ bits.toNat)
    (h2 : bits.toNat ≤ 32) : ∃ i, hash_min ws t val bits = some i ∧ i.toNat < 2 ^ bits.toNat := by
  unfold hash_min
  split
  · exact hash_32_generic_lt _ h1 h2
  · cases ws with
    | w32 => exact hash_32_generic_lt _ h1 h2
    | w64 => exact hash_64_generic_lt .w64 (t.convert val 64) h1 h2

end SiteCode.Hashtable
