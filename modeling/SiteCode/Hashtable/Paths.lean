import SiteCode.Hashtable.Runs
import Mathlib.Tactic.Ring
/-!
# The two paths of `hash_min`

On a 64-bit machine `hash_min` takes the top bits of a 32-bit product for an
`int` and of a 64-bit product for a `long`. The two products of one value differ
by the value times a constant, and the buckets by what that carries into the top
bits.
-/

namespace SiteCode.Hashtable

open Hlist IntType

/-! ## Top bits of a sum -/

section TopBits

variable {N K y d : Int}

theorem emod_ediv (hN : 0 < N) (y K : Int) : y % (N * K) / N = y / N % K := by
  have hq : y / N / K = y / (N * K) := Int.ediv_ediv_of_nonneg hN.le
  have hy : y % (N * K) = y + N * -(K * (y / (N * K))) := by
    rw [Int.emod_def]; ring
  rw [hy, Int.add_mul_ediv_left _ _ hN.ne', Int.emod_def, hq]
  ring

/-- Adding `d` keeps the top part of a word of `K` parts of size `N` when it
stays inside the lowest part, as long as it does not go around the word. -/
theorem top_add_eq_iff (hN : 0 < N) (h1 : -((K - 1) * N) ≤ y % N + d) (h2 : y % N + d < K * N) :
    y / N % K = (y + d) / N % K ↔ 0 ≤ y % N + d ∧ y % N + d < N := by
  have hsum : (y + d) / N = y / N + (y % N + d) / N := by
    have e : y + d = y % N + d + N * (y / N) := by have := Int.emod_add_mul_ediv y N; omega
    rw [e, Int.add_mul_ediv_left _ _ hN.ne', Int.add_comm]
  have hlow : -(K - 1) ≤ (y % N + d) / N := (Int.le_ediv_iff_mul_le hN).2 (by rw [Int.neg_mul]; exact h1)
  have hhigh : (y % N + d) / N < K := (Int.ediv_lt_iff_lt_mul hN).2 h2
  have hzero : (y % N + d) / N = 0 ↔ 0 ≤ y % N + d ∧ y % N + d < N := by
    rw [Int.ediv_eq_iff_of_pos hN]; simp
  rw [hsum, ← hzero, Int.emod_eq_emod_iff_emod_sub_eq_zero, ← Int.dvd_iff_emod_eq_zero, sub_add_cancel_left,
    Int.dvd_neg]
  exact ⟨fun h => Int.eq_zero_of_abs_lt_dvd h (abs_lt.2 ⟨by omega, hhigh⟩), fun h => h ▸ Int.dvd_zero K⟩

end TopBits

/-! ## The buckets -/

/-- The part of the 64-bit product below the bits that `hash_64` takes, and what
the 32-bit product adds to it: `GOLDEN_RATIO_32 << 32` less `GOLDEN_RATIO_64`
for each unit. The buckets agree when this is again below these bits. -/
def SameBucket (v : int.Val) (bits : Nat) : Prop :=
  let sum := v.toInt * 0x61C8864680B583EB % 2 ^ (64 - bits) + v.toInt * 0x7F4A7C15
  0 ≤ sum ∧ sum < 2 ^ (64 - bits)

instance (v : int.Val) (bits : Nat) : Decidable (SameBucket v bits) := inferInstanceAs (Decidable (_ ∧ _))

variable {b : Nat}

theorem toNat_top {w : Nat} (p : Int) (hb : b ≤ w) :
    ((BitVec.ofInt w p >>> (w - b)).toNat : Int) = p / 2 ^ (w - b) % 2 ^ b := by
  rw [BitVec.toNat_ushiftRight, Nat.shiftRight_eq_div_pow, Int.natCast_ediv, BitVec.toNat_ofInt,
    Int.toNat_of_nonneg (Int.emod_nonneg _ (by positivity)), ← emod_ediv (by positivity), ← pow_add,
    Nat.sub_add_cancel hb]
  norm_cast

theorem hash_min_int (v : int.Val) (h1 : 1 ≤ b) (h2 : b ≤ 30) :
    ∃ i, hash_min .w64 .int v (.ofNat 32 b) = some i ∧
      (i.toNat : Int) = (v.toInt * 0x61C8864680B583EB + v.toInt * 0x7F4A7C15) / 2 ^ (64 - b) % 2 ^ b := by
  have hb := toNat_ofNat_bits h2
  refine ⟨_, hash_32_generic_eq _ (by omega) (by omega), ?_⟩
  have hw : __hash_32_generic (int.convert v 32) = BitVec.ofInt 32 (v.toInt * 0x61C88647) := by
    rw [BitVec.ofInt_mul]; rfl
  -- shifted up by 32 bits, the 32-bit product is a word of 64 bits as well
  have hp : v.toInt * 0x61C8864680B583EB + v.toInt * 0x7F4A7C15 = v.toInt * 0x61C88647 * 2 ^ 32 := by ring
  have hN : (2 : Int) ^ (64 - b) = 2 ^ (32 - b) * 2 ^ 32 := by rw [← pow_add]; congr 1; omega
  rw [hb, hw, toNat_top _ (by omega), hp, hN, Int.mul_ediv_mul_of_pos_left _ _ (by positivity)]

theorem hash_min_long (v : int.Val) (h1 : 1 ≤ b) (h2 : b ≤ 30) :
    ∃ i, hash_min .w64 .long (toLong v) (.ofNat 32 b) = some i ∧
      (i.toNat : Int) = v.toInt * 0x61C8864680B583EB / 2 ^ (64 - b) % 2 ^ b := by
  have hb := toNat_ofNat_bits h2
  refine ⟨_, hash_64_generic_eq _ (by omega) (by omega), ?_⟩
  have hw : long.convert (toLong v) 64 * GOLDEN_RATIO_64 =
      BitVec.ofInt 64 (v.toInt * 0x61C8864680B583EB) := by
    rw [BitVec.ofInt_mul]
    exact congrArg (· * GOLDEN_RATIO_64) (BitVec.signExtend_eq (toLong v))
  have hlt := ushiftRight_lt (BitVec.ofInt 64 (v.toInt * 0x61C8864680B583EB)) (b := b) (by omega)
  have h32 : 2 ^ b < 2 ^ 32 := Nat.pow_lt_pow_right (by norm_num) (by omega)
  rw [hb, hw, BitVec.toNat_setWidth, Nat.mod_eq_of_lt (hlt.trans h32), toNat_top _ (by omega)]

/-- The two buckets of a value are the same exactly under `SameBucket`. -/
theorem hash_min_int_eq_long (v : int.Val) (h1 : 1 ≤ b) (h2 : b ≤ 30) :
    hash_min .w64 .int v (.ofNat 32 b) = hash_min .w64 .long (toLong v) (.ofNat 32 b) ↔ SameBucket v b := by
  obtain ⟨i, hi, ei⟩ := hash_min_int v h1 h2
  obtain ⟨j, hj, ej⟩ := hash_min_long v h1 h2
  have hv : 2 * v.toInt < 2 ^ 32 := BitVec.two_mul_toInt_lt
  have hv' : -2 ^ 32 ≤ 2 * v.toInt := BitVec.le_two_mul_toInt
  have hN : (2 : Int) ^ b * 2 ^ (64 - b) = 2 ^ 64 := by rw [← pow_add]; congr 1; omega
  have hN1 : (2 : Int) ^ (64 - b) ≤ 2 ^ 63 := pow_le_pow_right₀ (by norm_num) (by omega)
  have hpos : (0 : Int) < 2 ^ (64 - b) := by positivity
  have hr := Int.emod_nonneg (v.toInt * 0x61C8864680B583EB) hpos.ne'
  have hr' := Int.emod_lt_of_pos (v.toInt * 0x61C8864680B583EB) hpos
  rw [hi, hj, Option.some.injEq, ← BitVec.toNat_inj, ← Int.natCast_inj, ei, ej, eq_comm]
  -- `v` has 31 bits and the constant less than 32: the sum does not go around the word
  apply top_add_eq_iff hpos
  · rw [Int.sub_mul, hN]; omega
  · rw [hN]; omega

/-- A value that is not in the same bucket as an `int` and as a `long`, in a
table of 8 buckets. -/
theorem hash_min_int_ne_long : ¬ ∀ (v : int.Val) (b : Nat), 1 ≤ b → b ≤ 30 →
    hash_min .w64 .int v (.ofNat 32 b) = hash_min .w64 .long (toLong v) (.ofNat 32 b) :=
  fun h => absurd (h 69229 3 (by decide) (by decide)) (by decide)

/-! ## Looking up an `int` with a `long` -/

variable {O : Type} [DecidableEq O]

/-- A value has one bucket on both paths exactly under `SameBucket`; and after any run
that adds objects under `int` keys, a lookup with the key of a stored object as a
`long` visits it exactly then. -/
theorem int_lookup_with_long (b : Nat) (h1 : 1 ≤ b) (h2 : b ≤ 30) (next : O → Ptr O) (id : O → int.Val)
    (ops : List (Op int O)) (hok : Allowed [] ops) :
    (∀ v, hash_min .w64 .int v (.ofNat 32 b) = hash_min .w64 .long (toLong v) (.ofNat 32 b) ↔
      SameBucket v b) ∧
    ∃ m', run .w64 ⟨DEFINE_HASHTABLE b next fun _ => .NULL, id⟩ ops = some m' ∧
      ∀ o ∈ stored [] ops, ∀ fuel, (stored [] ops).length < fuel → ∃ visited,
        hash_for_each_possible .w64 .long look fuel m'.name (toLong (m'.id o)) =
          some (m'.name, visited, .NULL) ∧
        (o ∈ visited ↔ SameBucket (m'.id o) b) := by
  refine ⟨fun v => hash_min_int_eq_long v h1 h2, ?_⟩
  choose bkt hh hb using fun key => bucket_hash (O := O) .w64 .int h1 h2 key
  obtain ⟨m', hr, hS⟩ := stores_run (m := ⟨DEFINE_HASHTABLE b next fun _ => .NULL, id⟩)
    (fun name key => hb key name) (stores_empty (fun _ => rfl) fun _ => rfl) ops hok
  refine ⟨m', hr, fun o ho fuel hf => ?_⟩
  obtain ⟨j, ⟨x, hx, ex⟩, hj⟩ := bucket_hash (O := O) .w64 .long h1 h2 (toLong (m'.id o))
  obtain ⟨y, hy, ey⟩ := hh (m'.id o)
  refine ⟨chains (fun o => bkt (m'.id o)) (stored [] ops) j, ?_, ?_⟩
  · simp [hash_for_each_possible, hj, hS.agrees.for_each j ((List.length_filter_le _ _).trans_lt hf)]
  · rw [mem_chains, and_iff_right ho, ← hash_min_int_eq_long (m'.id o) h1 h2, hx, hy, Option.some.injEq,
      ← BitVec.toNat_inj, ex, ey, Fin.val_inj]

/-- An object with a small key is found. -/
theorem int_lookup_with_long_small : ∃ m' : Mem (1 <<< 3) int Bool,
    run .w64 ⟨DEFINE_HASHTABLE 3 (fun _ => .NULL) fun _ => .NULL, fun _ => (9 : int.Val)⟩ [.add true] = some m' ∧
      m'.id true = 9 ∧ ∃ visited, hash_for_each_possible .w64 .long look 2 m'.name (toLong 9) =
        some (m'.name, visited, .NULL) ∧ true ∈ visited := by
  obtain ⟨-, m', h1, h2⟩ := int_lookup_with_long 3 (by decide) (by decide) (fun _ => .NULL)
    (fun _ : Bool => (9 : int.Val)) [.add true] ⟨List.not_mem_nil, trivial⟩
  have hid : m'.id true = 9 := by cases h1; rfl
  obtain ⟨visited, h3, h4⟩ := h2 true (by decide) 2 (by decide)
  rw [hid] at h3 h4
  exact ⟨m', h1, hid, visited, h3, h4.2 (by decide)⟩

end SiteCode.Hashtable
