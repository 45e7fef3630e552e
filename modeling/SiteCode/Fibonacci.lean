import Mathlib.Data.Nat.Digits.Lemmas
import Mathlib.Data.Nat.Fib.Basic
import Mathlib.Tactic.Ring
/-!
# `fibonacci.py`: the exact algorithms

Python integers are `Int`; `none` is an exception, or a loop that is not over
within its fuel. `f3` works on floats and is not modelled.
-/

namespace SiteCode.Fibonacci

/-! ## The script -/

/-- `range(start, stop, step)` -/
def range (start stop step : Int) : List Int :=
  (List.range ((stop - start + step - step.sign).fdiv step).toNat).map fun i : Nat => start + step * i

/-- `xs[i]` -/
def getItem (xs : List Int) (i : Int) : Option Int :=
  if 0 ≤ i then xs[i.toNat]? else if -xs.length ≤ i then xs[(xs.length + i).toNat]? else none

def f (n : Int) : Int :=
  if n < 2 then n else f (n - 1) + f (n - 2)
termination_by n.toNat

/-- The local variables of `f1`; `tmp` is unbound at first. -/
structure Locals where
  f0 : Int
  f1 : Int
  tmp : Option Int

def f1_body (s : Locals) (_ : Int) : Locals :=
  let tmp := s.f0 + s.f1
  { f0 := s.f1, f1 := tmp, tmp := some tmp }

def f1 (n : Int) : Option Int :=
  if n < 2 then some n else ((range 2 (n + 1) 1).foldl f1_body ⟨0, 1, none⟩).tmp

/-- The loop that collects the bits of `k`. -/
def f2_bits : (fuel : Nat) → (k : Int) → (bit : List Int) → Option (List Int)
  | 0, _, _ => none
  | fuel + 1, k, bit => if k ≠ 0 then f2_bits fuel (k >>> (1 : Nat)) (bit ++ [k % 2]) else some bit

/-- The body of the loop that doubles. -/
def f2_body (bit : List Int) (s : Int × Int) (i : Int) : Option (Int × Int) := do
  let (a, b) := s
  let tmp := a * (2 * b - a)
  let b := b * b + a * a
  let a := tmp
  if (← getItem bit i) ≠ 0 then
    let tmp := a + b
    let a := b
    let b := tmp
    return (a, b)
  else
    return (a, b)

def f2 (fuel : Nat) (n : Int) : Option Int := do
  let bit ← f2_bits fuel n []
  let (a, _) ← (range (bit.length - 1) (-1) (-1)).foldlM (f2_body bit) (0, 1)
  return a

/-! ## Recursion and iteration -/

theorem f_eq_fib (n : Nat) : f n = Nat.fib n := by
  induction n using Nat.strong_induction_on with
  | _ n ih =>
    unfold f
    split
    · have : n = 0 ∨ n = 1 := by omega
      rcases this with rfl | rfl <;> rfl
    · obtain ⟨k, rfl⟩ : ∃ k, n = k + 2 := ⟨n - 2, by omega⟩
      have h1 := ih (k + 1) (by omega)
      have h0 := ih k (by omega)
      rw [show ((k + 2 : Nat) : Int) - 1 = (k + 1 : Nat) by omega, show ((k + 2 : Nat) : Int) - 2 = (k : Nat) by omega,
        h1, h0, Nat.fib_add_two]
      push_cast; ring

theorem length_range_up (start : Int) (c : Nat) : (range start (start + c) 1).length = c := by
  simp [range]

theorem f1_loop (is : List Int) (c : Nat) :
    is.foldl f1_body ⟨Nat.fib c, Nat.fib (c + 1), some (Nat.fib (c + 1))⟩ =
      ⟨Nat.fib (c + is.length), Nat.fib (c + is.length + 1), some (Nat.fib (c + is.length + 1))⟩ := by
  induction is generalizing c with
  | nil => rfl
  | cons i is ih =>
    have hstep : f1_body ⟨Nat.fib c, Nat.fib (c + 1), some (Nat.fib (c + 1))⟩ i =
        ⟨Nat.fib (c + 1), Nat.fib (c + 1 + 1), some (Nat.fib (c + 1 + 1))⟩ := by
      simp [f1_body, Nat.fib_add_two (n := c)]
    rw [List.foldl_cons, hstep, ih, List.length_cons, show c + 1 + is.length = c + (is.length + 1) by omega]

theorem f1_eq_fib (n : Nat) : f1 n = some (Nat.fib n : Int) := by
  unfold f1
  split
  · have : n = 0 ∨ n = 1 := by omega
    rcases this with rfl | rfl <;> rfl
  · obtain ⟨k, rfl⟩ : ∃ k, n = k + 2 := ⟨n - 2, by omega⟩
    have hlen := length_range_up 2 (k + 1)
    rw [show (2 : Int) + (k + 1 : Nat) = (k + 2 : Nat) + 1 by push_cast; ring] at hlen
    -- the first turn binds `tmp`
    cases hr : range 2 ((k + 2 : Nat) + 1) 1 with
    | nil => rw [hr] at hlen; cases hlen
    | cons i is =>
      rw [hr] at hlen
      have h := f1_loop is 1
      rw [show is.length = k by simpa using hlen, show 1 + k + 1 = k + 2 by omega] at h
      exact congrArg Locals.tmp h

/-! ## Fast doubling -/

/-- The bits of `k`, the lowest first. -/
theorem f2_bits_eq (fuel k : Nat) (bit : List Int) (hf : k < fuel) :
    f2_bits fuel k bit = some (bit ++ (Nat.digits 2 k).map Nat.cast) := by
  induction fuel generalizing k bit with
  | zero => omega
  | succ fuel ih =>
    unfold f2_bits
    by_cases hk : k = 0
    · simp [hk]
    · have h1 : (k : Int) >>> (1 : Nat) = (k / 2 : Nat) := by rw [Int.shiftRight_eq_div_pow]; norm_cast
      rw [if_pos (by exact_mod_cast hk), h1, ih (k / 2) _ (by omega),
        Nat.digits_def' (by norm_num) (Nat.pos_of_ne_zero hk)]
      simp

theorem range_down (c : Nat) : range (c - 1) (-1) (-1) = (List.range c).map fun i : Nat => (c : Int) - 1 - i := by
  have e : (-1 - ((c : Int) - 1) + -1 - Int.sign (-1)).fdiv (-1) = c := by
    rw [show (-1 - ((c : Int) - 1) + -1 - Int.sign (-1)) = -c by simp; ring, Int.neg_fdiv_neg, Int.fdiv_one]
  rw [range, e, Int.toNat_natCast]
  exact List.map_congr_left fun i _ => by ring

theorem getItem_digits {n j : Nat} (hj : j < (Nat.digits 2 n).length) :
    getItem ((Nat.digits 2 n).map Nat.cast) j = some ((n >>> j % 2 : Nat) : Int) := by
  have h := Nat.getD_digits n j (b := 2) le_rfl
  rw [List.getD_eq_getElem?_getD, List.getElem?_eq_getElem hj, Option.getD_some] at h
  simp [getItem, hj, h, Nat.shiftRight_eq_div_pow]

/-- One turn, from the pair of the prefix without the bit to the one with it. -/
theorem f2_body_eq {bit : List Int} {i : Int} {m : Nat} (hi : getItem bit i = some ((m % 2 : Nat) : Int)) :
    f2_body bit (Nat.fib (m / 2), Nat.fib (m / 2 + 1)) i =
      some ((Nat.fib m : Int), (Nat.fib (m + 1) : Int)) := by
  obtain ⟨k, hk⟩ : ∃ k, k = m / 2 := ⟨_, rfl⟩
  have hle : Nat.fib k ≤ 2 * Nat.fib (k + 1) := Nat.fib_le_fib_succ.trans (by omega)
  have h0 : (Nat.fib (2 * k) : Int) = Nat.fib k * (2 * Nat.fib (k + 1) - Nat.fib k) := by
    rw [Nat.fib_two_mul]; push_cast [hle]; ring
  have h1 : (Nat.fib (2 * k + 1) : Int) = Nat.fib (k + 1) * Nat.fib (k + 1) + Nat.fib k * Nat.fib k := by
    rw [Nat.fib_two_mul_add_one]; push_cast; ring
  have h2 : (Nat.fib (2 * k + 2) : Int) = Nat.fib (2 * k) + Nat.fib (2 * k + 1) := by
    rw [Nat.fib_add_two]; push_cast; ring
  rw [← hk, f2_body, hi]
  rcases Nat.mod_two_eq_zero_or_one m with hm | hm
  · obtain rfl : m = 2 * k := by omega
    simp [hm, h0, h1]
  · obtain rfl : m = 2 * k + 1 := by omega
    simp [hm, h0, h1, h2]

/-- After the highest `c` bits, the pair belongs to the number they write. -/
theorem f2_prefix (n c : Nat) (hc : c ≤ (Nat.digits 2 n).length) :
    ((range ((Nat.digits 2 n).length - 1) (-1) (-1)).take c).foldlM (f2_body ((Nat.digits 2 n).map Nat.cast)) (0, 1) =
      some ((Nat.fib (n >>> ((Nat.digits 2 n).length - c)) : Int),
        (Nat.fib (n >>> ((Nat.digits 2 n).length - c) + 1) : Int)) := by
  rw [range_down, ← List.map_take, List.take_range, Nat.min_eq_left hc]
  induction c with
  | zero =>
    have h : n >>> (Nat.digits 2 n).length = 0 := by
      rw [Nat.shiftRight_eq_div_pow]
      exact Nat.div_eq_of_lt (Nat.lt_base_pow_length_digits (by norm_num))
    simp [h]
  | succ c ih =>
    obtain ⟨j, hj⟩ : ∃ j, (Nat.digits 2 n).length = j + (c + 1) := ⟨_, (Nat.sub_add_cancel hc).symm⟩
    have hi := getItem_digits (n := n) (j := j) (by omega)
    rw [List.range_succ, List.map_append, List.foldlM_append, ih (by omega)]
    -- the bit at `j` takes the prefix `n >>> (j + 1)` to `n >>> j`
    have e1 : (Nat.digits 2 n).length - c = j + 1 := by omega
    have e2 : ((Nat.digits 2 n).length : Int) - 1 - c = j := by omega
    have e3 : n >>> (j + 1) = n >>> j / 2 := Nat.shiftRight_succ n j
    simp only [List.map_cons, List.map_nil, List.foldlM_cons, List.foldlM_nil, Option.bind_eq_bind, Option.bind_some,
      e1, e2, e3, f2_body_eq hi, show (Nat.digits 2 n).length - (c + 1) = j by omega]
    rfl

theorem f2_bits_digits {n fuel : Nat} (hf : n < fuel) :
    f2_bits fuel n [] = some ((Nat.digits 2 n).map Nat.cast) := by
  simpa using f2_bits_eq fuel n [] hf

theorem f2_eq_fib {n fuel : Nat} (hf : n < fuel) : f2 fuel n = some (Nat.fib n : Int) := by
  have hall := f2_prefix n _ le_rfl
  rw [List.take_of_length_le (by simp [range_down])] at hall
  simp [f2, f2_bits_digits hf, hall]

/-- On every `n ≥ 0` all three return the `n`-th Fibonacci number, `f2` once it has
fuel for the bits of `n`; and after any number `c` of turns of its second loop the
pair is that of the first `c` bits of `n`. -/
theorem fibonacci_agree (n : Nat) :
    f n = Nat.fib n ∧ f1 n = some (Nat.fib n : Int) ∧
    ∀ fuel, n < fuel → f2 fuel n = some (Nat.fib n : Int) ∧
      ∃ bit, f2_bits fuel n [] = some bit ∧ ∀ c ≤ bit.length,
        ((range (bit.length - 1) (-1) (-1)).take c).foldlM (f2_body bit) (0, 1) =
          some ((Nat.fib (n >>> (bit.length - c)) : Int), (Nat.fib (n >>> (bit.length - c) + 1) : Int)) := by
  refine ⟨f_eq_fib n, f1_eq_fib n, fun fuel hf => ⟨f2_eq_fib hf, _, f2_bits_digits hf, ?_⟩⟩
  simpa using f2_prefix n

theorem fibonacci_agree_ten : f 10 = 55 ∧ f1 10 = some 55 ∧ f2 11 10 = some 55 :=
  have h := fibonacci_agree 10
  ⟨h.1, h.2.1, (h.2.2 11 (by decide)).1⟩

/-! ## Negative arguments -/

/-- A negative number shifted to the right stays negative, so its bits never end. -/
theorem f2_bits_neg (fuel : Nat) {k : Int} (hk : k < 0) (bit : List Int) : f2_bits fuel k bit = none := by
  induction fuel generalizing k bit with
  | zero => rfl
  | succ fuel ih =>
    have hs : k >>> (1 : Nat) < 0 := by
      rw [Int.shiftRight_eq_div_pow]
      omega
    unfold f2_bits
    rw [if_pos (by omega)]
    exact ih hs _

/-- Its loop over the bits ends, and the three algorithms return one number, exactly
on the arguments `n ≥ 0`. -/
theorem f2_agrees_iff (n : Int) :
    (∃ fuel bit r, f2_bits fuel n [] = some bit ∧ f2 fuel n = some r ∧ f1 n = some r ∧ f n = r) ↔ 0 ≤ n := by
  constructor
  · rintro ⟨fuel, bit, r, hb, -⟩
    by_contra hn
    rw [f2_bits_neg fuel (Int.not_le.1 hn)] at hb
    cases hb
  · intro hn
    obtain ⟨k, rfl⟩ := Int.eq_ofNat_of_zero_le hn
    exact ⟨k + 1, _, _, f2_bits_digits k.lt_succ_self, f2_eq_fib k.lt_succ_self, f1_eq_fib k, f_eq_fib k⟩

/-- On -1, where `f` and `f1` return -1 at once, `f2` has no answer. -/
theorem f2_minus_one : f (-1) = -1 ∧ f1 (-1) = some (-1) ∧ ¬ ∃ fuel r, f2 fuel (-1) = some r := by
  refine ⟨by simp [f], rfl, ?_⟩
  rintro ⟨fuel, r, h⟩
  rw [f2, f2_bits_neg fuel (by decide)] at h
  cases h

end SiteCode.Fibonacci
