import Mathlib.Data.Nat.Size
import SiteCode.Fibonacci
/-!
# `fibonacci.py`: what the exact algorithms cost

The note on the script rates the algorithms O(2^n), O(n) and O(log n). The first is
counted in calls, and the others in the turns of their loops.
-/

namespace SiteCode.Fibonacci

/-! ## Calls of `f` -/

/-- `f`, and the arguments of all calls in the order they are made. -/
def f_traced (n : Int) : Int × List Int :=
  if n < 2 then (n, [n])
  else
    let (x, xs) := f_traced (n - 1)
    let (y, ys) := f_traced (n - 2)
    (x + y, n :: (xs ++ ys))
termination_by n.toNat

/-- `f` in an interpreter with room for `limit` calls inside each other; `none` is a `RecursionError`. -/
def f_limited : (limit : Nat) → (n : Int) → Option Int
  | 0, _ => none
  | limit + 1, n => if n < 2 then some n else do return (← f_limited limit (n - 1)) + (← f_limited limit (n - 2))

theorem fst_f_traced (n : Int) : (f_traced n).1 = f n := by
  induction n using f.induct with
  | case1 n hn => rw [f_traced, f, if_pos hn, if_pos hn]
  | case2 n hn ih1 ih2 => rw [f_traced, f, if_neg hn, if_neg hn, ← ih1, ← ih2]

theorem f_traced_of_lt {n : Nat} (hn : n < 2) : (f_traced n).2 = [(n : Int)] := by
  rw [f_traced, if_pos (by omega)]

theorem f_traced_add_two (n : Nat) :
    (f_traced (n + 2 : Nat)).2 = ((n + 2 : Nat) : Int) :: ((f_traced (n + 1 : Nat)).2 ++ (f_traced n).2) := by
  have h1 : ((n + 2 : Nat) : Int) - 1 = (n + 1 : Nat) := by omega
  have h2 : ((n + 2 : Nat) : Int) - 2 = n := by omega
  rw [f_traced, if_neg (by omega), h1, h2]

/-- Every call but the leaves makes two more. -/
theorem length_f_traced (n : Nat) : (f_traced n).2.length + 1 = 2 * Nat.fib (n + 1) := by
  induction n using Nat.twoStepInduction with
  | zero => rw [f_traced_of_lt Nat.two_pos]; rfl
  | one => rw [f_traced_of_lt Nat.one_lt_two]; rfl
  | more n ih0 ih1 =>
    have hfib : Nat.fib (n + 2 + 1) = Nat.fib (n + 1) + Nat.fib (n + 1 + 1) := Nat.fib_add_two
    rw [f_traced_add_two, List.length_cons, List.length_append, hfib]
    omega

theorem count_f_traced_of_lt {n k : Nat} (h : n < k) : (f_traced n).2.count (k : Int) = 0 := by
  induction n using Nat.twoStepInduction with
  | zero =>
    have hne : ((0 : Nat) : Int) ≠ k := by omega
    rw [f_traced_of_lt Nat.two_pos, List.count_cons_of_ne hne, List.count_nil]
  | one =>
    have hne : ((1 : Nat) : Int) ≠ k := by omega
    rw [f_traced_of_lt Nat.one_lt_two, List.count_cons_of_ne hne, List.count_nil]
  | more n ih0 ih1 =>
    have hne : ((n + 2 : Nat) : Int) ≠ k := by omega
    rw [f_traced_add_two, List.count_cons_of_ne hne, List.count_append, ih0 (by omega), ih1 (by omega)]

theorem count_f_traced_self {k : Nat} (hk : 1 ≤ k) : (f_traced k).2.count (k : Int) = 1 := by
  rcases k with _ | _ | j
  · omega
  · rw [f_traced_of_lt Nat.one_lt_two]
    rfl
  · rw [f_traced_add_two, List.count_cons_self, List.count_append, count_f_traced_of_lt (Nat.lt_succ_self _),
      count_f_traced_of_lt (Nat.lt_add_of_pos_right Nat.two_pos)]

/-- The same argument comes up again and again. -/
theorem count_f_traced {k : Nat} (hk : 1 ≤ k) (d : Nat) :
    (f_traced (k + d : Nat)).2.count (k : Int) = Nat.fib (d + 1) := by
  induction d using Nat.twoStepInduction with
  | zero => exact count_f_traced_self hk
  | one =>
    obtain ⟨j, rfl⟩ := Nat.exists_eq_add_of_le' hk
    have hne : ((j + 2 : Nat) : Int) ≠ (j + 1 : Nat) := by omega
    rw [Nat.add_assoc, f_traced_add_two, List.count_cons_of_ne hne, List.count_append, count_f_traced_self hk,
      count_f_traced_of_lt (Nat.lt_succ_self j)]
    rfl
  | more d ih0 ih1 =>
    have hne : ((k + d + 2 : Nat) : Int) ≠ k := by omega
    have hfib : Nat.fib (d + 2 + 1) = Nat.fib (d + 1) + Nat.fib (d + 1 + 1) := Nat.fib_add_two
    rw [← Nat.add_assoc, f_traced_add_two, List.count_cons_of_ne hne, List.count_append, ih0, hfib, ← ih1,
      Nat.add_comm, Nat.add_assoc]

theorem f_limited_eq (limit n : Nat) : f_limited limit n = if max n 1 ≤ limit then some (f n) else none := by
  induction limit generalizing n with
  | zero =>
    rw [if_neg (by omega)]
    rfl
  | succ limit ih =>
    by_cases hn : n < 2
    · have hsmall : (n : Int) < 2 := by omega
      rw [f_limited, f, if_pos hsmall, if_pos hsmall, if_pos (by omega)]
    · obtain ⟨k, rfl⟩ := Nat.exists_eq_add_of_le' (Nat.not_lt.1 hn)
      have h1 : ((k + 2 : Nat) : Int) - 1 = (k + 1 : Nat) := by omega
      have h2 : ((k + 2 : Nat) : Int) - 2 = k := by omega
      have hbig : ¬ ((k + 2 : Nat) : Int) < 2 := by omega
      rw [f_limited, f, if_neg hbig, if_neg hbig, h1, h2, ih, ih]
      by_cases hl : k + 1 ≤ limit
      · rw [if_pos (by omega), if_pos (by omega), if_pos (by omega)]
        rfl
      · have hfirst : ¬ max (k + 1) 1 ≤ limit := by omega
        have hall : ¬ max (k + 2) 1 ≤ limit + 1 := by omega
        rw [if_neg hfirst, if_neg hall]
        rfl

/-! ## Growth -/

theorem two_mul_fib_le (n : Nat) : 2 * Nat.fib (n + 1) ≤ 2 ^ n + 1 := by
  induction n using Nat.twoStepInduction with
  | zero => decide
  | one => decide
  | more n ih0 ih1 =>
    have hfib : Nat.fib (n + 2 + 1) = Nat.fib (n + 1) + Nat.fib (n + 1 + 1) := Nat.fib_add_two
    have hpos : 0 < 2 ^ n := Nat.two_pow_pos n
    rw [hfib]
    simp only [pow_succ] at ih1 ⊢
    omega

theorem two_pow_half_le (n : Nat) : 2 ^ (n / 2) ≤ Nat.fib (n + 1) := by
  induction n using Nat.twoStepInduction with
  | zero => decide
  | one => decide
  | more n ih0 _ =>
    have hfib : Nat.fib (n + 2 + 1) = Nat.fib (n + 1) + Nat.fib (n + 1 + 1) := Nat.fib_add_two
    have hmono : Nat.fib (n + 1) ≤ Nat.fib (n + 1 + 1) := Nat.fib_le_fib_succ
    have hhalf : (n + 2) / 2 = n / 2 + 1 := by omega
    rw [hfib, hhalf, pow_succ]
    omega

/-! ## Turns of `f2` -/

theorem size_eq {k : Nat} (hk : k ≠ 0) : k.size = (k / 2).size + 1 := by
  have hbit : Nat.bit k.bodd k.div2 = k := Nat.bit_bodd_div2 k
  have hsize := Nat.size_bit (b := k.bodd) (n := k.div2) (by rwa [hbit])
  rwa [hbit, Nat.div2_val] at hsize

/-- The first loop takes a turn for each bit, and tests once more. -/
theorem f2_bits_fuel (fuel k : Nat) (bit : List Int) :
    f2_bits fuel k bit = if k.size < fuel then some (bit ++ (Nat.digits 2 k).map Nat.cast) else none := by
  induction fuel generalizing k bit with
  | zero => rfl
  | succ fuel ih =>
    unfold f2_bits
    by_cases hk : k = 0
    · subst hk
      simp
    · have hshift : (k : Int) >>> (1 : Nat) = (k / 2 : Nat) := by
        rw [Int.shiftRight_eq_div_pow]
        norm_cast
      rw [if_pos (by exact_mod_cast hk), hshift, ih, size_eq hk, Nat.digits_def' Nat.one_lt_two (Nat.pos_of_ne_zero hk)]
      simp

theorem length_digits (k : Nat) : (Nat.digits 2 k).length = k.size := by
  induction k using Nat.strongRecOn with
  | ind k ih =>
    by_cases hk : k = 0
    · subst hk
      rfl
    · rw [Nat.digits_def' Nat.one_lt_two (Nat.pos_of_ne_zero hk), List.length_cons, size_eq hk, ih _ (by omega)]

end SiteCode.Fibonacci
