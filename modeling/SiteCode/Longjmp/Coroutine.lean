import SiteCode.Lib.Machine
import Mathlib.Algebra.Ring.Parity
import Mathlib.Data.List.Basic
/-!
# `coroutine.c`

`main` and its two threads as a machine over program points. `setjmp` saves the
point at which it returns, and `longjmp` resumes a saved point with a value. A
`longjmp` over a buffer that is not set and an overflow of a counter are faults.
-/

namespace SiteCode.Longjmp

/-- What `setjmp` returns when it is resumed by `longjmp(env, v)`. -/
def jumpValue (v : Int) : Int := if v = 0 then 1 else v

theorem jumpValue_ne_zero (v : Int) : jumpValue v ≠ 0 := by
  unfold jumpValue
  split
  · decide
  · assumption

namespace Coroutine

open Lib

def INT_MAX : Int := 2147483647

/-- The two calls of `setjmp` in `main`. -/
inductive Point where
  | entry_thread_0
  | entry_thread_1
  deriving DecidableEq, Repr

/-- What runs next. -/
inductive Pc where
  | setjmp_th0
  /-- `setjmp(jmpbuf_th0)` returned `v` -/
  | assign_rc0 (v : Int)
  | test_rc0
  | thread_1
  | longjmp_th1
  | setjmp_th1
  /-- `setjmp(jmpbuf_th1)` returned `v` -/
  | assign_rc1 (v : Int)
  | call_thread_0
  | thread_0
  | longjmp_th0
  | returned
  deriving DecidableEq, Repr

inductive Thread where
  | thread_0
  | thread_1
  deriving DecidableEq, Repr

structure St where
  pc : Pc
  rc0 : Int
  rc1 : Int
  cnt0 : Int
  cnt1 : Int
  jmpbuf_th0 : Option Point
  jmpbuf_th1 : Option Point
  /-- What the threads printed, in order. -/
  entries : List (Thread × Int)
  /-- The values `rc0` was given, in order. -/
  rc0s : List Int
  deriving Repr

/-- The state in which `main` starts; `rc0` is not read before it is assigned. -/
def init : St := ⟨.setjmp_th0, 0, 0, 0, 0, none, none, [], []⟩

/-- `longjmp(env, v)` -/
def longjmp (st : St) (env : Option Point) (v : Int) : Option St :=
  match env with
  | none => none
  | some .entry_thread_0 => some { st with pc := .assign_rc0 (jumpValue v) }
  | some .entry_thread_1 => some { st with pc := .assign_rc1 (jumpValue v) }

def step (st : St) : Option St :=
  match st.pc with
  | .setjmp_th0 => some { st with jmpbuf_th0 := some .entry_thread_0, pc := .assign_rc0 0 }
  | .assign_rc0 v => some { st with rc0 := v, rc0s := st.rc0s ++ [v], pc := .test_rc0 }
  | .test_rc0 => some { st with pc := if st.rc0 ≠ 0 then .thread_1 else .setjmp_th1 }
  | .thread_1 => some { st with entries := st.entries ++ [(.thread_1, st.cnt1)], pc := .longjmp_th1 }
  | .longjmp_th1 =>
    -- `cnt1++` gives its old value to `longjmp`
    if st.cnt1 = INT_MAX then none else longjmp { st with cnt1 := st.cnt1 + 1 } st.jmpbuf_th1 st.cnt1
  | .setjmp_th1 => some { st with jmpbuf_th1 := some .entry_thread_1, pc := .assign_rc1 0 }
  | .assign_rc1 v => some { st with rc1 := v, pc := .call_thread_0 }
  | .call_thread_0 => some { st with pc := .thread_0 }
  | .thread_0 => some { st with entries := st.entries ++ [(.thread_0, st.cnt0)], pc := .longjmp_th0 }
  | .longjmp_th0 =>
    if st.cnt0 = INT_MAX then none else longjmp { st with cnt0 := st.cnt0 + 1 } st.jmpbuf_th0 st.cnt0
  | .returned => some st

/-! ## The invariant -/

/-- Strict alternation: the `i`-th entry is that of thread `i % 2` with `i / 2`. -/
def turns (n : Nat) : List (Thread × Int) :=
  (List.range n).map fun i => (if i % 2 = 0 then .thread_0 else .thread_1, (i / 2 : Nat))

/-- `setjmp(jmpbuf_th0)` returned 0 once, at first. -/
def FirstPassOnly (rc0s : List Int) : Prop := ∃ rest, rc0s = 0 :: rest ∧ ∀ v ∈ rest, v ≠ 0

/-- The counters are `a` and `b`, and `n` entries were made in turn. -/
def At (st : St) (a b n : Nat) : Prop := st.cnt0 = a ∧ st.cnt1 = b ∧ st.entries = turns n

def Set0 (st : St) : Prop := st.jmpbuf_th0 = some .entry_thread_0

def Set1 (st : St) : Prop := st.jmpbuf_th1 = some .entry_thread_1

/-- What holds at each point. -/
def Inv (st : St) : Prop :=
  match st.pc with
  | .setjmp_th0 => At st 0 0 0 ∧ st.rc0s = []
  | .assign_rc0 v => Set0 st ∧ ((v = 0 ∧ At st 0 0 0 ∧ st.rc0s = []) ∨
      (v ≠ 0 ∧ Set1 st ∧ FirstPassOnly st.rc0s ∧ ∃ k, At st (k + 1) k (2 * k + 1)))
  | .test_rc0 => Set0 st ∧ FirstPassOnly st.rc0s ∧ ((st.rc0 = 0 ∧ At st 0 0 0) ∨
      (st.rc0 ≠ 0 ∧ Set1 st ∧ ∃ k, At st (k + 1) k (2 * k + 1)))
  | .thread_1 => Set0 st ∧ Set1 st ∧ FirstPassOnly st.rc0s ∧ ∃ k, At st (k + 1) k (2 * k + 1)
  | .longjmp_th1 => Set0 st ∧ Set1 st ∧ FirstPassOnly st.rc0s ∧ ∃ k, At st (k + 1) k (2 * k + 2)
  | .setjmp_th1 => Set0 st ∧ FirstPassOnly st.rc0s ∧ At st 0 0 0
  | .assign_rc1 _ | .call_thread_0 | .thread_0 =>
    Set0 st ∧ Set1 st ∧ FirstPassOnly st.rc0s ∧ ∃ k, At st k k (2 * k)
  | .longjmp_th0 => Set0 st ∧ Set1 st ∧ FirstPassOnly st.rc0s ∧ ∃ k, At st k k (2 * k + 1)
  | .returned => False

theorem turns_even (k : Nat) : turns (2 * k + 1) = turns (2 * k) ++ [(.thread_0, (k : Int))] := by
  simp [turns, List.range_succ]

theorem turns_odd (k : Nat) : turns (2 * k + 2) = turns (2 * k + 1) ++ [(.thread_1, (k : Int))] := by
  have h1 : (2 * k + 1) % 2 = 1 := by omega
  simp [turns, List.range_succ, h1]
  omega

theorem FirstPassOnly.append {rc0s : List Int} (h : FirstPassOnly rc0s) {v : Int} (hv : v ≠ 0) :
    FirstPassOnly (rc0s ++ [v]) := by
  obtain ⟨rest, rfl, hr⟩ := h
  exact ⟨rest ++ [v], rfl, List.forall_mem_append.2 ⟨hr, by simpa using hv⟩⟩

theorem inv_init : Inv init := ⟨⟨rfl, rfl, rfl⟩, rfl⟩

/-- Every step keeps the invariant. -/
theorem step_inv (st st' : St) (hI : Inv st) (h : step st = some st') : Inv st' := by
  unfold Inv at hI
  unfold step at h
  cases hpc : st.pc with
  | setjmp_th0 =>
    simp only [hpc] at hI h
    cases h
    exact ⟨rfl, .inl ⟨rfl, hI⟩⟩
  | assign_rc0 v =>
    simp only [hpc] at hI h
    cases h
    rcases hI with ⟨h0, ⟨hv, ha, hr⟩ | ⟨hv, h1, hr, ha⟩⟩
    · exact ⟨h0, ⟨[], by simp [hr, hv], nofun⟩, .inl ⟨hv, ha⟩⟩
    · exact ⟨h0, hr.append hv, .inr ⟨hv, h1, ha⟩⟩
  | test_rc0 =>
    simp only [hpc] at hI h
    rcases hI with ⟨h0, hr, ⟨hv, ha⟩ | ⟨hv, h1, ha⟩⟩
    · rw [if_neg (not_not.2 hv)] at h
      cases h
      exact ⟨h0, hr, ha⟩
    · rw [if_pos hv] at h
      cases h
      exact ⟨h0, h1, hr, ha⟩
  | thread_1 =>
    simp only [hpc] at hI h
    cases h
    obtain ⟨h0, h1, hr, k, ha, hb, he⟩ := hI
    exact ⟨h0, h1, hr, k, ha, hb, by rw [he, hb, turns_odd]⟩
  | longjmp_th1 =>
    simp only [hpc] at hI h
    obtain ⟨h0, h1, hr, k, ha, hb, he⟩ := hI
    rw [show st.jmpbuf_th1 = _ from h1] at h
    split at h
    · cases h
    · cases h
      exact ⟨h0, rfl, hr, k + 1, ha, by simp [hb], he⟩
  | setjmp_th1 =>
    simp only [hpc] at hI h
    cases h
    obtain ⟨h0, hr, ha⟩ := hI
    exact ⟨h0, rfl, hr, 0, ha⟩
  | assign_rc1 v =>
    simp only [hpc] at hI h
    cases h
    exact hI
  | call_thread_0 =>
    simp only [hpc] at hI h
    cases h
    exact hI
  | thread_0 =>
    simp only [hpc] at hI h
    cases h
    obtain ⟨h0, h1, hr, k, ha, hb, he⟩ := hI
    exact ⟨h0, h1, hr, k, ha, hb, by rw [he, ha, turns_even]⟩
  | longjmp_th0 =>
    simp only [hpc] at hI h
    obtain ⟨h0, h1, hr, k, ha, hb, he⟩ := hI
    rw [show st.jmpbuf_th0 = _ from h0] at h
    split at h
    · cases h
    · -- `rc0` becomes the old counter, or 1 for the counter 0
      cases h
      exact ⟨rfl, .inr ⟨jumpValue_ne_zero _, h1, hr, k, by simp [ha], hb, he⟩⟩
  | returned => simp only [hpc] at hI

/-- A step from a state with the invariant faults only by an overflow. -/
theorem step_none (st : St) (hI : Inv st) (h : step st = none) :
    (st.pc = .longjmp_th0 ∧ st.cnt0 = INT_MAX) ∨ (st.pc = .longjmp_th1 ∧ st.cnt1 = INT_MAX) := by
  unfold Inv at hI
  unfold step at h
  cases hpc : st.pc with
  | longjmp_th0 =>
    simp only [hpc] at hI h
    rw [show st.jmpbuf_th0 = _ from hI.1] at h
    split at h
    · exact .inl ⟨rfl, ‹_›⟩
    · cases h
  | longjmp_th1 =>
    simp only [hpc] at hI h
    rw [show st.jmpbuf_th1 = _ from hI.2.1] at h
    split at h
    · exact .inr ⟨rfl, ‹_›⟩
    · cases h
  | _ => simp [hpc] at h

/-! ## What the invariant says of every state -/

theorem Inv.counters {st : St} (hI : Inv st) :
    (∃ e, st.entries = turns e) ∧ (st.cnt0 - st.cnt1 = 0 ∨ st.cnt0 - st.cnt1 = 1) := by
  have hat : ∃ a b n, At st a b n ∧ (a = b ∨ a = b + 1) := by
    unfold Inv at hI
    split at hI
    · exact ⟨_, _, _, hI.1, .inl rfl⟩
    · rcases hI.2 with ⟨-, ha, -⟩ | ⟨-, -, -, k, ha⟩
      · exact ⟨_, _, _, ha, .inl rfl⟩
      · exact ⟨_, _, _, ha, .inr rfl⟩
    · rcases hI.2.2 with ⟨-, ha⟩ | ⟨-, -, k, ha⟩
      · exact ⟨_, _, _, ha, .inl rfl⟩
      · exact ⟨_, _, _, ha, .inr rfl⟩
    · obtain ⟨-, -, -, k, ha⟩ := hI; exact ⟨_, _, _, ha, .inr rfl⟩
    · obtain ⟨-, -, -, k, ha⟩ := hI; exact ⟨_, _, _, ha, .inr rfl⟩
    · exact ⟨_, _, _, hI.2.2, .inl rfl⟩
    · obtain ⟨-, -, -, k, ha⟩ := hI; exact ⟨_, _, _, ha, .inl rfl⟩
    · obtain ⟨-, -, -, k, ha⟩ := hI; exact ⟨_, _, _, ha, .inl rfl⟩
    · obtain ⟨-, -, -, k, ha⟩ := hI; exact ⟨_, _, _, ha, .inl rfl⟩
    · obtain ⟨-, -, -, k, ha⟩ := hI; exact ⟨_, _, _, ha, .inl rfl⟩
    · exact hI.elim
  obtain ⟨a, b, n, ⟨h0, h1, he⟩, hab⟩ := hat
  exact ⟨⟨n, he⟩, by omega⟩

theorem Inv.jumps {st : St} (hI : Inv st) :
    (st.pc = .longjmp_th0 → st.jmpbuf_th0 = some .entry_thread_0) ∧
    (st.pc = .longjmp_th1 → st.jmpbuf_th1 = some .entry_thread_1) ∧
    (st.pc = .setjmp_th1 → st.entries = []) ∧ st.pc ≠ .returned := by
  refine ⟨fun h => ?_, fun h => ?_, fun h => ?_, fun h => ?_⟩ <;> simp only [Inv, h] at hI
  · exact hI.1
  · exact hI.2.1
  · exact hI.2.2.2.2

theorem Inv.rc0s {st : St} (hI : Inv st) : st.rc0s = [] ∨ FirstPassOnly st.rc0s := by
  unfold Inv at hI
  split at hI
  · exact .inl hI.2
  · rcases hI.2 with ⟨-, -, hr⟩ | ⟨-, -, hr, -⟩
    · exact .inl hr
    · exact .inr hr
  · exact .inr hI.2.1
  · exact .inr hI.2.2.1
  · exact .inr hI.2.2.1
  · exact .inr hI.2.1
  · exact .inr hI.2.2.1
  · exact .inr hI.2.2.1
  · exact .inr hI.2.2.1
  · exact .inr hI.2.2.1
  · exact hI.elim

/-! ## Every entry comes -/

/-- `thread_0` is about to be entered, after `k` entries of each thread. -/
def round (rc0 rc1 : Int) (k : Nat) (rc0s : List Int) : St :=
  ⟨.thread_0, rc0, rc1, k, k, some .entry_thread_0, some .entry_thread_1, turns (2 * k), rc0s⟩

/-- The same state after the entry. -/
def entered (rc0 rc1 : Int) (k : Nat) (rc0s : List Int) : St :=
  { round rc0 rc1 k rc0s with pc := .longjmp_th0, entries := turns (2 * k + 1) }

variable {rc0 rc1 : Int} {k : Nat} {rc0s : List Int}

theorem round_enters : Reaches step (round rc0 rc1 k rc0s) (entered rc0 rc1 k rc0s) := by
  refine .head rfl ?_
  simpa [round, entered, turns_even] using Reaches.refl _

/-- From one entry of `thread_0` to the next, by way of `thread_1`. -/
theorem entered_next (hk : (k : Int) < INT_MAX) :
    Reaches step (entered rc0 rc1 k rc0s)
      (round (jumpValue k) (jumpValue k) (k + 1) (rc0s ++ [jumpValue k])) := by
  have hlt : (k : Int) ≠ INT_MAX := by omega
  have hth0 : step (entered rc0 rc1 k rc0s) =
      some { entered rc0 rc1 k rc0s with cnt0 := k + 1, pc := .assign_rc0 (jumpValue k) } := if_neg hlt
  have htest : ∀ env entries,
      step ⟨.test_rc0, jumpValue k, rc1, k + 1, k, env, some .entry_thread_1, entries, rc0s ++ [jumpValue k]⟩ =
        some ⟨.thread_1, jumpValue k, rc1, k + 1, k, env, some .entry_thread_1, entries, rc0s ++ [jumpValue k]⟩ :=
    fun env entries => by simp [step, jumpValue_ne_zero]
  have hth1 : ∀ env entries,
      step ⟨.longjmp_th1, jumpValue k, rc1, k + 1, k, env, some .entry_thread_1, entries, rc0s ++ [jumpValue k]⟩ =
        some ⟨.assign_rc1 (jumpValue k), jumpValue k, rc1, k + 1, k + 1, env, some .entry_thread_1, entries,
          rc0s ++ [jumpValue k]⟩ :=
    fun env entries => if_neg hlt
  refine .head hth0 (.head rfl (.head (htest _ _) (.head rfl (.head (hth1 _ _) (.head rfl (.head rfl ?_))))))
  have hturns : turns (2 * (k + 1)) = turns (2 * k + 1) ++ [(.thread_1, (k : Int))] := turns_odd k
  simpa [round, entered, hturns] using Reaches.refl _

/-- Each round is reached as long as the counters can count it. -/
theorem reaches_round (hk : (k : Int) ≤ INT_MAX) : ∃ rc0 rc1 rc0s, Reaches step init (round rc0 rc1 k rc0s) := by
  induction k with
  | zero => exact ⟨0, 0, [0], .head rfl (.head rfl (.head rfl (.head rfl (.head rfl (.head rfl (.refl _))))))⟩
  | succ k ih =>
    obtain ⟨rc0, rc1, rc0s, hround⟩ := ih (by omega)
    exact ⟨_, _, _, hround.trans (round_enters.trans (entered_next (by omega)))⟩

/-- The threads are entered until `cnt0` cannot count another entry. -/
theorem reaches_turns {e : Nat} (he : (e : Int) ≤ 2 * INT_MAX + 1) :
    ∃ st, Reaches step init st ∧ st.entries = turns e := by
  obtain ⟨k, rfl | rfl⟩ := Nat.even_or_odd' e
  · obtain ⟨rc0, rc1, rc0s, hround⟩ := reaches_round (k := k) (by omega)
    exact ⟨_, hround, rfl⟩
  · obtain ⟨rc0, rc1, rc0s, hround⟩ := reaches_round (k := k) (by omega)
    exact ⟨_, hround.trans round_enters, rfl⟩

/-- The run ends at the overflow of `cnt0`. -/
theorem reaches_overflow :
    ∃ st, Reaches step init st ∧ st.entries = turns (2 * INT_MAX.toNat + 1) ∧ step st = none := by
  have hmax : (INT_MAX.toNat : Int) = INT_MAX := Int.toNat_of_nonneg (by decide)
  generalize INT_MAX.toNat = k at hmax ⊢
  obtain ⟨rc0, rc1, rc0s, hround⟩ := reaches_round (Int.le_of_eq hmax)
  exact ⟨_, hround.trans round_enters, rfl, if_pos hmax⟩

/-- In every state of the run, the entries are those of strict alternation, the
counters differ by 0 or 1, each `longjmp` finds its buffer set, `main` skipped
`thread_1` only before the first entry, `rc0` was zero only at first, and `main` has
not returned. Every entry up to the overflow of `cnt0` is made, and the run ends
only there. -/
theorem coroutines_alternate (n : Nat) :
    (∀ st, steps step n init = some st →
      (∃ e, st.entries = turns e) ∧ (st.cnt0 - st.cnt1 = 0 ∨ st.cnt0 - st.cnt1 = 1) ∧
      (st.pc = .longjmp_th0 → st.jmpbuf_th0 = some .entry_thread_0) ∧
      (st.pc = .longjmp_th1 → st.jmpbuf_th1 = some .entry_thread_1) ∧
      (st.pc = .setjmp_th1 → st.entries = []) ∧ (st.rc0s = [] ∨ FirstPassOnly st.rc0s) ∧ st.pc ≠ .returned) ∧
    (steps step n init = none → ∃ m < n, ∃ st, steps step m init = some st ∧
      ((st.pc = .longjmp_th0 ∧ st.cnt0 = INT_MAX) ∨ (st.pc = .longjmp_th1 ∧ st.cnt1 = INT_MAX))) ∧
    (∀ e : Nat, (e : Int) ≤ 2 * INT_MAX + 1 → ∃ st, Reaches step init st ∧ st.entries = turns e) ∧
    ∃ st, Reaches step init st ∧ st.entries = turns (2 * INT_MAX.toNat + 1) ∧ step st = none := by
  refine ⟨fun st h => ?_, fun h => ?_, fun e he => reaches_turns he, reaches_overflow⟩
  · have hI := steps_inv step_inv n inv_init h
    obtain ⟨h0, h1, h2, h3⟩ := hI.jumps
    exact ⟨hI.counters.1, hI.counters.2, h0, h1, h2, hI.rc0s, h3⟩
  · obtain ⟨m, hm, st, hs, hf⟩ := exists_fault n h
    exact ⟨m, hm, st, hs, step_none st (steps_inv step_inv m inv_init hs) hf⟩

/-- The first four entries, after 20 steps. -/
example : (steps step 20 init).map (·.entries) =
    some [(.thread_0, 0), (.thread_1, 0), (.thread_0, 1), (.thread_1, 1)] := by decide

end Coroutine

end SiteCode.Longjmp
