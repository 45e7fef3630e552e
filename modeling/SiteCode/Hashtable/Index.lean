import SiteCode.Hashtable.Table
/-!
# The index of a bucket

A table of `1 << bits` heads is indexed by the top `bits` bits of a product,
which are shifted down from the width of a word. With one bucket there are no
bits to take, and the shift is by the whole width.
-/

namespace SiteCode.Hashtable

/-! ## No bits -/

theorem hash_32_generic_zero (val : u32) : hash_32_generic val 0 = none := rfl

theorem hash_64_generic_zero (ws : WordSize) (val : u64) : hash_64_generic ws val 0 = none := by
  cases ws <;> rfl

/-- Both paths of `hash_min` shift a word of `w` bits by `w` when no bit is asked for. -/
theorem hash_min_zero (ws : WordSize) (t : IntType) (val : t.Val) : hash_min ws t val 0 = none := by
  unfold hash_min
  split
  · exact hash_32_generic_zero _
  · cases ws with
    | w32 => exact hash_32_generic_zero _
    | w64 => exact hash_64_generic_zero .w64 (t.convert val 64)

/-! ## The index -/

variable {O : Type}

/-- `HASH_BITS` is the logarithm of the size for every table that can be declared. The
shifts of `hash_min` are by less than a width, and its index is inside the table,
exactly when the table has two buckets or more. -/
theorem hash_min_in_table_iff (ws : WordSize) (t : IntType) {b : Nat} (hb : b ≤ 30) (name : Table (1 <<< b) O)
    (key : t.Val) :
    (HASH_BITS name).toNat = b ∧
      ((∃ i, hash_min ws t key (HASH_BITS name) = some i ∧ i.toNat < HASH_SIZE name) ↔ 1 ≤ b) := by
  rw [hash_bits_eq hb, toNat_ofNat_bits hb, HASH_SIZE, Nat.one_shiftLeft]
  refine ⟨rfl, ?_⟩
  constructor
  · rintro ⟨i, hi, -⟩
    by_contra h0
    obtain rfl : b = 0 := by omega
    rw [show BitVec.ofNat 32 0 = 0 from rfl, hash_min_zero] at hi
    cases hi
  · intro h1
    have hlt := hash_min_lt ws t key (BitVec.ofNat 32 b)
    rw [toNat_ofNat_bits hb] at hlt
    apply hlt h1
    omega

/-- The key -1 in a table of 8 buckets. -/
theorem hash_min_in_table_eight : ∃ i, hash_min .w64 .int (-1) (HASH_BITS (DEFINE_HASHTABLE (O := Bool) 3
      (fun _ => .NULL) fun _ => .NULL)) = some i ∧ i.toNat < 8 :=
  (hash_min_in_table_iff .w64 .int (b := 3) (by decide) (DEFINE_HASHTABLE 3 (fun _ => .NULL) fun _ => .NULL) (-1)).2.2
    (by decide)

/-- A table of one bucket has no index for any key. -/
theorem hash_min_one_bucket : ¬ ∀ (ws : WordSize) (t : IntType) (b : Nat), b ≤ 30 →
    ∀ (name : Table (1 <<< b) Bool) (key : t.Val),
      (HASH_BITS name).toNat = b ∧ ∃ i, hash_min ws t key (HASH_BITS name) = some i ∧ i.toNat < HASH_SIZE name := by
  intro h
  obtain ⟨-, i, hi, -⟩ := h .w64 .int 0 (by decide) (DEFINE_HASHTABLE 0 (fun _ => .NULL) fun _ => .NULL) (-1)
  have hz : hash_min .w64 .int (-1)
      (HASH_BITS (DEFINE_HASHTABLE (O := Bool) 0 (fun _ => .NULL) fun _ => .NULL)) = none :=
    hash_min_zero .w64 .int (-1)
  rw [hz] at hi
  cases hi

end SiteCode.Hashtable
