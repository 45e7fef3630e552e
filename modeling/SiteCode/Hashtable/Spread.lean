import SiteCode.Hashtable.Table
import SiteCode.Lib.Spread
/-!
# How evenly keys are spread

`hash.h` multiplies by a large odd number and takes the high bits. Over all keys of
a type of 4 or 8 bytes the result is exactly even: every bucket is the bucket of the
same number of keys, on both word sizes and with any odd number.
-/

namespace SiteCode.Hashtable

open Lib

variable {α β O : Type} {b k l : Nat}

/-- Every hash below `2 ^ b` is the hash of exactly `k` arguments, and every argument has one. -/
def Even (hash : α → Option u32) (b k : Nat) : Prop :=
  ∃ f : α → Fin (2 ^ b), Spreads f k ∧ ∀ x, (hash x).map BitVec.toNat = some (f x).val

theorem Even.comp [Finite α] [Finite β] {hash : β → Option u32} {g : α → β} (he : Even hash b k) (hg : Spreads g l) :
    Even (fun x => hash (g x)) b (k * l) := by
  obtain ⟨f, hf, hx⟩ := he
  exact ⟨f ∘ g, hf.comp hg, fun x => hx (g x)⟩

theorem Even.card {hash : α → Option u32} (he : Even hash b k) {i : Nat} (hi : i < 2 ^ b) :
    Nat.card {x // (hash x).map BitVec.toNat = some i} = k := by
  obtain ⟨f, hf, hx⟩ := he
  rw [← hf ⟨i, hi⟩]
  refine Nat.card_congr (Equiv.subtypeEquivRight fun x => ?_)
  rw [hx, Option.some_inj, Fin.ext_iff]

/-! ## The hash functions -/

variable {bits : u32}

theorem even_hash_32 (h1 : 1 ≤ bits.toNat) (h2 : bits.toNat ≤ 32) :
    Even (fun val => hash_32_generic val bits) bits.toNat (2 ^ (32 - bits.toNat)) := by
  refine ⟨_, spreads_mul_top (c := GOLDEN_RATIO_32) rfl h2, fun val => ?_⟩
  dsimp only
  rw [hash_32_generic_eq val h1 h2, val_top]
  rfl

theorem even_hash_64 (ws : WordSize) (h1 : 1 ≤ bits.toNat) (h2 : bits.toNat ≤ 32) :
    Even (fun val => hash_64_generic ws val bits) bits.toNat (2 ^ (64 - bits.toNat)) := by
  cases ws with
  | w32 =>
    have hfold := (even_hash_32 h1 h2).comp (spreads_fold (a := 32) (b := 32) __hash_32_generic)
    rw [← pow_add] at hfold
    have e : 32 - bits.toNat + 32 = 64 - bits.toNat := by omega
    rwa [e] at hfold
  | w64 =>
    have h64 : bits.toNat ≤ 64 := by omega
    refine ⟨_, spreads_mul_top (c := GOLDEN_RATIO_64) rfl h64, fun val => ?_⟩
    -- the high bits fit into the 32 bits of the result
    have hlt := (ushiftRight_lt (val * GOLDEN_RATIO_64) h64).trans_le (Nat.pow_le_pow_right (by decide) h2)
    dsimp only
    rw [hash_64_generic_eq val h1 h64, val_top, Option.map_some, BitVec.toNat_setWidth, Nat.mod_eq_of_lt hlt]

/-- A conversion to a type that is not wider drops the high bits. -/
theorem spreads_convert (t : IntType) {a w : Nat} (h : 8 * t.sizeof = a + w) :
    Spreads (fun v => t.convert v w) (2 ^ a) := by
  have hdrop : ∀ v : t.Val, t.convert v w = v.setWidth w := by
    intro v
    unfold IntType.convert
    split
    · exact BitVec.signExtend_eq_setWidth_of_le v (by omega)
    · rfl
  have hset : ∀ {n : Nat}, n = a + w → Spreads (fun v : BitVec n => v.setWidth w) (2 ^ a) := by
    rintro n rfl
    have hfold := spreads_fold fun _ : BitVec a => (0 : BitVec w)
    have e : (fold fun _ : BitVec a => (0 : BitVec w)) = fun v => v.setWidth w := by
      funext v
      simp [fold]
    rwa [e] at hfold
  simp only [hdrop]
  exact hset h

theorem even_hash_long_32 (t : IntType) {a : Nat} (h : 8 * t.sizeof = a + 32) (h1 : 1 ≤ bits.toNat)
    (h2 : bits.toNat ≤ 32) : Even (fun val => hash_long .w32 t val bits) bits.toNat (2 ^ (a + 32 - bits.toNat)) := by
  have hconv := (even_hash_32 h1 h2).comp (spreads_convert t h)
  rw [← pow_add] at hconv
  have e : 32 - bits.toNat + a = a + 32 - bits.toNat := by omega
  rwa [e] at hconv

theorem even_hash_long_64 (t : IntType) (h : t.sizeof = 8) (h1 : 1 ≤ bits.toNat) (h2 : bits.toNat ≤ 32) :
    Even (fun val => hash_long .w64 t val bits) bits.toNat (2 ^ (64 - bits.toNat)) := by
  have hconv := (even_hash_64 .w64 h1 h2).comp (spreads_convert t (a := 0) (w := 64) (by omega))
  rwa [pow_zero, Nat.mul_one] at hconv

theorem even_hash_min (bits : u32) (ws : WordSize) (t : IntType) (ht : t.sizeof = 4 ∨ t.sizeof = 8)
    (h1 : 1 ≤ bits.toNat)
    (h2 : bits.toNat ≤ 32) : Even (fun val => hash_min ws t val bits) bits.toNat (2 ^ (8 * t.sizeof - bits.toNat)) := by
  unfold hash_min
  rcases ht with ht | ht
  · have hle : t.sizeof ≤ 4 := by omega
    have e : 8 * t.sizeof - bits.toNat = 32 - bits.toNat := by omega
    simp only [if_pos hle, e]
    have hconv := (even_hash_32 h1 h2).comp (spreads_convert t (a := 0) (w := 32) (by omega))
    rwa [pow_zero, Nat.mul_one] at hconv
  · have hgt : ¬ t.sizeof ≤ 4 := by omega
    have e : 8 * t.sizeof - bits.toNat = 64 - bits.toNat := by omega
    simp only [if_neg hgt, e]
    cases ws with
    | w32 => exact even_hash_long_32 t (a := 32) (by omega) h1 h2
    | w64 => exact even_hash_long_64 t ht h1 h2

/-- Of all words of 32 or 64 bits and of all pointers, each hash of `bits` bits is
that of equally many; so is each result of `hash32_ptr`. -/
theorem hashes_even (ws : WordSize) (bits : u32) (h1 : 1 ≤ bits.toNat) (h2 : bits.toNat ≤ 32) :
    (∀ i < 2 ^ bits.toNat,
      Nat.card {val // (hash_32_generic val bits).map BitVec.toNat = some i} = 2 ^ (32 - bits.toNat) ∧
      Nat.card {val // (hash_64_generic ws val bits).map BitVec.toNat = some i} = 2 ^ (64 - bits.toNat) ∧
      Nat.card {ptr // (hash_ptr ws ptr bits).map BitVec.toNat = some i} =
        2 ^ (8 * (IntType.ulong ws).sizeof - bits.toNat)) ∧
    ∀ i, Nat.card {ptr // hash32_ptr ws ptr = i} = 2 ^ (8 * (IntType.ulong ws).sizeof - 32) := by
  refine ⟨fun i hi => ⟨(even_hash_32 h1 h2).card hi, (even_hash_64 ws h1 h2).card hi, ?_⟩, ?_⟩
  · cases ws with
    | w32 => exact (even_hash_long_32 (IntType.ulong .w32) (a := 0) rfl h1 h2).card hi
    | w64 => exact (even_hash_long_64 (IntType.ulong .w64) rfl h1 h2).card hi
  · cases ws with
    | w32 => exact spreads_of_bijective Function.bijective_id
    | w64 =>
      have hfold := spreads_fold (a := 32) (b := 32) id
      have e : (fold id : BitVec (32 + 32) → BitVec 32) = hash32_ptr .w64 := by
        funext ptr
        change ptr.setWidth 32 ^^^ (ptr >>> 32).setWidth 32 = (ptr ^^^ ptr >>> 32).setWidth 32
        rw [BitVec.setWidth_xor]
      rwa [e] at hfold

/-- Three bits of a hash on a machine of 64 bits. -/
theorem hashes_even_three : Nat.card {val // (hash_64_generic .w64 val 3).map BitVec.toNat = some 5} = 2 ^ 61 :=
  ((hashes_even .w64 3 (by decide) (by decide)).1 5 (by decide)).2.1

/-! ## Buckets -/

/-- `ilog2` of a number that fits into the bits it looks at. -/
theorem ilog2_from_eq {n k : Nat} (hn : n ≠ 0) (hk : n < 2 ^ (k + 1)) : ilog2_from n k = n.log2 := by
  induction k with
  | zero =>
    obtain rfl : n = 1 := by omega
    rfl
  | succ k ih =>
    unfold ilog2_from
    by_cases hbit : 2 ^ (k + 1) ≤ n
    · have hset : n &&& 1 <<< (k + 1) ≠ 0 := by
        rw [Nat.one_shiftLeft, Nat.and_two_pow, Nat.testBit_eq_decide_div_mod_eq]
        have hdiv : n / 2 ^ (k + 1) = 1 := Nat.div_eq_of_lt_le (by omega) (by rw [pow_succ] at hk; omega)
        simp [hdiv]
      rw [if_pos hset]
      exact ((Nat.log2_eq_iff hn).2 ⟨hbit, hk⟩).symm
    · have hclear : n &&& 1 <<< (k + 1) = 0 := by
        rw [Nat.one_shiftLeft, Nat.and_two_pow, Nat.testBit_lt_two_pow (by omega)]
        simp
      rw [if_neg (not_not.2 hclear)]
      exact ih (by omega)

theorem ilog2_eq {n : Nat} (hn : n ≠ 0) (h : n < 2 ^ 64) : ilog2 n = n.log2 := ilog2_from_eq hn h

variable {sz : Nat}

/-- An array of any size from 2 on can be a table. Every key has a bucket; the first
buckets, as many as the highest power of two in the size, are the buckets of equally
many keys of 4 or 8 bytes, and no key has a bucket behind them. -/
theorem buckets_even (ws : WordSize) (h1 : 2 ≤ sz) (h2 : sz < 2 ^ 32) (name : Table sz O) :
    (HASH_BITS name).toNat = sz.log2 ∧
    (∀ (t : IntType) (key : t.Val), ∃ i, bucket ws t name key = some i ∧ i.val < 2 ^ sz.log2) ∧
    ∀ t : IntType, t.sizeof = 4 ∨ t.sizeof = 8 → ∀ i : Fin sz, i.val < 2 ^ sz.log2 →
      Nat.card {key : t.Val // bucket ws t name key = some i} = 2 ^ (8 * t.sizeof - sz.log2) := by
  have hpos : sz ≠ 0 := by omega
  have hlog1 : 1 ≤ sz.log2 := (Nat.le_log2 hpos).2 h1
  have hlog2 : sz.log2 < 32 := (Nat.log2_lt hpos).2 h2
  have hle : 2 ^ sz.log2 ≤ sz := Nat.log2_self_le hpos
  have hbits : (HASH_BITS name).toNat = sz.log2 := by
    rw [HASH_BITS, HASH_SIZE, ilog2_eq hpos (by omega), BitVec.toNat_ofNat, Nat.mod_eq_of_lt (by omega)]
  have hhash : ∀ (t : IntType) (key : t.Val),
      ∃ h, hash_min ws t key (HASH_BITS name) = some h ∧ h.toNat < 2 ^ sz.log2 :=
    fun t key => hbits ▸ hash_min_lt ws t key (HASH_BITS name) (by omega) (by omega)
  refine ⟨hbits, fun t key => ?_, fun t ht i hi => ?_⟩
  · obtain ⟨h, hh, hlt⟩ := hhash t key
    refine ⟨⟨h.toNat, hlt.trans_le hle⟩, ?_, hlt⟩
    simp [bucket, hh, hlt.trans_le hle]
  · have heven := even_hash_min (HASH_BITS name) ws t ht (by omega) (by omega)
    rw [hbits] at heven
    rw [← heven.card hi]
    refine Nat.card_congr (Equiv.subtypeEquivRight fun key => ?_)
    obtain ⟨h, hh, hlt⟩ := hhash t key
    simp [bucket, hh, hlt.trans_le hle, Fin.ext_iff]

/-- The keys of type `int` in the last bucket in use of an array of 12 heads. -/
theorem buckets_even_twelve :
    let name : Table 12 Unit := ⟨fun _ => .NULL, fun _ => .NULL, fun _ => .NULL⟩
    Nat.card {key : IntType.int.Val // bucket .w64 .int name key = some 7} = 2 ^ 29 :=
  (buckets_even .w64 (by decide) (by decide) _).2.2 .int (.inl rfl) 7 (by decide)

end SiteCode.Hashtable
