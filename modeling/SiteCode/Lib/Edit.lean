import Mathlib.Data.List.Nodup
/-!
# Edits of sequences at a named element
-/

namespace SiteCode.Lib

variable {α : Type*}

/-- The elements up to the first one with `p`, and that one. -/
def through (p : α → Bool) : List α → List α
  | [] => []
  | x :: xs => if p x then [x] else x :: through p xs

theorem through_append_of_some {p : α → Bool} {u : List α} (h : (u.find? p).isSome) (v : List α) :
    through p (u ++ v) = through p u := by
  induction u with
  | nil => cases h
  | cons x u ih =>
    by_cases hx : p x
    · simp [through, hx]
    · simp only [List.find?_cons, hx] at h
      simp [through, hx, ih h]

theorem through_append_of_none {p : α → Bool} {u : List α} (h : u.find? p = none) (v : List α) :
    through p (u ++ v) = u ++ through p v := by
  induction u with
  | nil => rfl
  | cons x u ih =>
    obtain ⟨hx, hu⟩ : ¬ p x ∧ ∀ y ∈ u, ¬ p y := by simpa using h
    simp [through, hx, ih (List.find?_eq_none.2 hu)]

@[simp] theorem through_nil (p : α → Bool) : through p [] = [] := rfl

theorem through_isPrefix (p : α → Bool) (xs : List α) : through p xs <+: xs := by
  induction xs with
  | nil => exact List.prefix_rfl
  | cons x xs ih =>
    rw [through]
    split
    · exact ⟨xs, rfl⟩
    · exact List.cons_prefix_cons.2 ⟨rfl, ih⟩

theorem through_sublist (p : α → Bool) (xs : List α) : (through p xs).Sublist xs := (through_isPrefix p xs).sublist

variable [DecidableEq α]

/-- Put `g` in the place of `p`. -/
def graft (p : α) (g xs : List α) : List α := xs.flatMap fun x => if x = p then g else [x]

theorem graft_of_not_mem {p : α} {xs : List α} (hx : p ∉ xs) (g : List α) : graft p g xs = xs := by
  induction xs with
  | nil => rfl
  | cons x xs ih =>
    simp only [List.mem_cons, not_or] at hx
    simp only [graft, List.flatMap_cons, Ne.symm hx.1, if_false] at ih ⊢
    rw [ih hx.2]; rfl

theorem graft_append {p : α} {u v : List α} (hd : (u ++ p :: v).Nodup) (g : List α) :
    graft p g (u ++ p :: v) = u ++ (g ++ v) := by
  have hu : p ∉ u := fun hm => (List.nodup_append.1 hd).2.2 p hm p (by simp) rfl
  have hv : p ∉ v := (List.nodup_cons.1 (List.nodup_append.1 hd).2.1).1
  have eu := graft_of_not_mem hu g
  have ev := graft_of_not_mem hv g
  simp only [graft] at eu ev ⊢
  rw [List.flatMap_append, List.flatMap_cons, if_pos rfl, eu, ev]

theorem mem_graft {p x : α} {g xs : List α} : x ∈ graft p g xs ↔ x ∈ xs ∧ x ≠ p ∨ p ∈ xs ∧ x ∈ g := by
  unfold graft
  rw [List.mem_flatMap]
  constructor
  · rintro ⟨y, hy, hx⟩
    by_cases hp : y = p
    · rw [if_pos hp] at hx
      exact .inr ⟨hp ▸ hy, hx⟩
    · rw [if_neg hp, List.mem_singleton] at hx
      exact .inl ⟨hx ▸ hy, hx ▸ hp⟩
  · rintro (⟨hx, hp⟩ | ⟨hp, hx⟩)
    · exact ⟨x, hx, by simp [hp]⟩
    · exact ⟨p, hp, by simp [hx]⟩

theorem erase_append {p : α} {u v : List α} (hd : (u ++ p :: v).Nodup) :
    (u ++ p :: v).erase p = u ++ v := by
  have hu : p ∉ u := fun hm => (List.nodup_append.1 hd).2.2 p hm p (by simp) rfl
  rw [List.erase_append_right _ hu, List.erase_cons_head]

end SiteCode.Lib
