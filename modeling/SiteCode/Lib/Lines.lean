import Mathlib.Data.Nat.Basic
import Mathlib.Tactic.Common
/-!
# Numbered lines

The elements of a list are numbered from 1 on, and a part of the list, from one
number to another, keeps its numbers. A text is split at a separator and joined
again, and a part of its pieces can be joined as well.
-/

namespace SiteCode.Lib

variable {α : Type*} {xs : List α} {a b m : Nat}

/-! ## Parts -/

/-- The elements with the numbers `a` to `b`, and their numbers. -/
def between (a b : Nat) (xs : List α) : List (α × Nat) := (xs.zipIdx 1).filter fun p => a ≤ p.2 ∧ p.2 ≤ b

/-- A part starts at its first number, and takes the elements from there to its last one. -/
theorem filter_zipIdx (a b k : Nat) (xs : List α) : (xs.zipIdx k).filter (fun p => a ≤ p.2 ∧ p.2 ≤ b) =
    ((xs.take (b + 1 - k)).drop (a - k)).zipIdx (max a k) := by
  induction xs generalizing k with
  | nil => simp
  | cons x xs ih =>
    rw [List.zipIdx_cons, List.filter_cons, ih]
    by_cases hb : k ≤ b
    · have htake : b + 1 - k = b + 1 - (k + 1) + 1 := by omega
      rw [htake, List.take_succ_cons]
      by_cases ha : a ≤ k
      · have h0 : a - k = 0 := by omega
        have h1 : a - (k + 1) = 0 := by omega
        simp [ha, hb, h0, h1, Nat.max_eq_right (Nat.le_succ_of_le ha), List.zipIdx_cons]
      · have hdrop : a - k = a - (k + 1) + 1 := by omega
        have hmax : max a (k + 1) = max a k := by omega
        simp [ha, hdrop, hmax]
    · have h0 : b + 1 - k = 0 := by omega
      have h1 : b + 1 - (k + 1) = 0 := by omega
      simp [hb, h0, h1]

theorem between_eq (a b : Nat) (xs : List α) : between a b xs = ((xs.take b).drop (a - 1)).zipIdx (max a 1) :=
  filter_zipIdx a b 1 xs

theorem map_fst_between (a b : Nat) (xs : List α) : (between a b xs).map Prod.fst = (xs.take b).drop (a - 1) := by
  rw [between_eq, List.zipIdx_map_fst]

/-- The elements of a part are numbered again, from its first number on. -/
theorem zipIdx_map_fst_between (a b : Nat) (xs : List α) :
    ((between a b xs).map Prod.fst).zipIdx (max a 1) = between a b xs := by
  rw [map_fst_between, between_eq]

/-- Numbers are from 1 to the length of the list. -/
theorem between_clamp (a b : Nat) (xs : List α) : between (max a 1) (min b xs.length) xs = between a b xs := by
  apply List.filter_congr
  intro p hp
  have h1 := List.le_snd_of_mem_zipIdx hp
  have h2 := List.snd_lt_add_of_mem_zipIdx hp
  rw [decide_eq_decide]
  omega

theorem between_all {b : Nat} (hb : xs.length ≤ b) : (between 1 b xs).map Prod.fst = xs := by
  rw [map_fst_between, List.take_of_length_le hb]
  rfl

theorem between_ne_nil {a b : Nat} (h1 : 1 ≤ a) (h2 : a ≤ b) (h3 : a ≤ xs.length) : between a b xs ≠ [] := by
  intro h
  have hlen := congrArg List.length (map_fst_between a b xs)
  rw [h, List.map_nil, List.length_nil, List.length_drop, List.length_take] at hlen
  omega

theorem filter_zipIdx_append (h1 : a ≤ m + 1) (h2 : m ≤ b) (k : Nat) (xs : List α) :
    (xs.zipIdx k).filter (fun p => a ≤ p.2 ∧ p.2 ≤ m) ++ (xs.zipIdx k).filter (fun p => m + 1 ≤ p.2 ∧ p.2 ≤ b) =
      (xs.zipIdx k).filter fun p => a ≤ p.2 ∧ p.2 ≤ b := by
  induction xs generalizing k with
  | nil => rfl
  | cons x xs ih =>
    by_cases hk : k ≤ m
    · rw [List.zipIdx_cons, List.filter_cons, List.filter_cons, List.filter_cons, ← ih]
      have hm : ¬ m + 1 ≤ k := Nat.not_le.2 (Nat.lt_succ_of_le hk)
      by_cases ha : a ≤ k
      · simp [ha, hk, hm, Nat.le_trans hk h2]
      · simp [ha, hm]
    · -- from here on all numbers belong to the second part
      have hlt : ∀ p ∈ (x :: xs).zipIdx k, m < p.2 := fun p hp =>
        Nat.lt_of_lt_of_le (Nat.lt_of_not_le hk) (List.le_snd_of_mem_zipIdx hp)
      have hfirst : ((x :: xs).zipIdx k).filter (fun p => a ≤ p.2 ∧ p.2 ≤ m) = [] := by
        apply List.filter_eq_nil_iff.2
        intro p hp
        have := hlt p hp
        simp
        omega
      rw [hfirst, List.nil_append]
      apply List.filter_congr
      intro p hp
      have := hlt p hp
      rw [decide_eq_decide]
      omega

/-- Two parts that meet. -/
theorem between_append (h1 : a ≤ m + 1) (h2 : m ≤ b) (xs : List α) :
    between a m xs ++ between (m + 1) b xs = between a b xs :=
  filter_zipIdx_append h1 h2 1 xs

/-! ## Separators -/

variable [DecidableEq α] {sep : α}

/-- No piece has the separator in it. -/
theorem not_mem_of_mem_splitOn {l : List α} (hl : l ∈ xs.splitOn sep) : sep ∉ l := by
  induction xs generalizing l with
  | nil => simp_all
  | cons x xs ih =>
    rw [List.splitOn_cons_eq_if_modifyHead] at hl
    split at hl
    · rcases List.mem_cons.1 hl with rfl | hl
      · exact List.not_mem_nil
      · exact ih hl
    · rename_i hx
      obtain ⟨y, ys, hys⟩ := List.exists_cons_of_ne_nil (List.splitOn_ne_nil sep xs)
      rw [hys] at hl ih
      rw [List.modifyHead_cons] at hl
      rcases List.mem_cons.1 hl with rfl | hl
      · have hne : sep ≠ x := by
          rintro rfl
          simp at hx
        exact List.not_mem_cons_of_ne_of_not_mem hne (ih List.mem_cons_self)
      · exact ih (List.mem_cons_of_mem _ hl)

omit [DecidableEq α] in
theorem intercalate_append (sep : α) {us vs : List (List α)} (hu : us ≠ []) (hv : vs ≠ []) :
    [sep].intercalate (us ++ vs) = [sep].intercalate us ++ sep :: [sep].intercalate vs := by
  induction us with
  | nil => exact absurd rfl hu
  | cons u us ih =>
    by_cases hus : us = []
    · subst hus
      rw [List.singleton_append, List.intercalate_cons_of_ne_nil hv, List.intercalate_singleton]
      simp
    · rw [List.cons_append, List.intercalate_cons_of_ne_nil (by simp [hus]), ih hus,
        List.intercalate_cons_of_ne_nil hus]
      simp

/-- A part of the pieces is joined and split again. -/
theorem splitOn_between (h : between a b (xs.splitOn sep) ≠ []) :
    ([sep].intercalate ((between a b (xs.splitOn sep)).map Prod.fst)).splitOn sep =
      (between a b (xs.splitOn sep)).map Prod.fst := by
  apply List.splitOn_intercalate
  · intro l hl
    rw [map_fst_between] at hl
    exact not_mem_of_mem_splitOn (List.mem_of_mem_take (List.mem_of_mem_drop hl))
  · simpa using h

end SiteCode.Lib
